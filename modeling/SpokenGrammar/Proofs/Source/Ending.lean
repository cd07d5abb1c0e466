import SpokenGrammar.Proofs.Source.Expression
import SpokenGrammar.Proofs.Source.Taking

namespace SpokenGrammar

open Reader

namespace Source

variable {c d : Cursor} {e r t : List Char} {delimiters : Char × Char}

inductive Ends (r : List Char) : List Char → Prop where
  | stop : Ends r [';']
  | escaped (x : Char) {e : List Char} : Ends r e → Ends r ('\\' :: x :: e)
  | enclosed (delimiters : Char × Char) (inside : List Char) {e : List Char} :
      delimiters ∈ enclosures → delimiters.2 ∉ inside → Ends r e →
      Ends r (delimiters.1 :: inside ++ delimiters.2 :: e)
  | single (x : Char) {e : List Char} : x ≠ ';' → x ≠ '\\' →
      (∀ delimiters ∈ enclosures, x = delimiters.1 → delimiters.2 ∉ e ++ r) → Ends r e →
      Ends r (x :: e)

namespace Ends

theorem ne_nil (h : Ends r e) : e ≠ [] := by
  cases h <;> simp

theorem getLast?_eq (h : Ends r e) : e.getLast? = some ';' := by
  induction h with
  | stop => rfl
  | escaped x h ih => rw [List.getLast?_cons_cons, List.getLast?_cons, ih]; rfl
  | enclosed delimiters inside _ _ h ih =>
    rw [List.getLast?_append_of_ne_nil _ (List.cons_ne_nil _ _), List.getLast?_cons, ih]
    rfl
  | single x _ _ _ h ih => rw [List.getLast?_cons, ih]; rfl

theorem mono (h : Ends r e)
    (hsub : ∀ delimiters ∈ enclosures, delimiters.2 ∈ t → delimiters.2 ∈ r) : Ends t e := by
  induction h with
  | stop => exact .stop
  | escaped x _ ih => exact .escaped x ih
  | enclosed delimiters inside hmem hinside _ ih =>
    exact .enclosed delimiters inside hmem hinside ih
  | @single x e hx hescape hopens _ ih =>
    refine .single x hx hescape (fun delimiters hmem hxo hclose => ?_) ih
    refine hopens delimiters hmem hxo (List.mem_append.mpr ?_)
    exact (List.mem_append.mp hclose).imp_right (hsub delimiters hmem)

end Ends

/-- What follows the first terminator that stands by itself, if each delimiter opened before it is
closed before it. Inside an enclosure the delimiter that ends it is looked for. -/
def afterTerminator : Option Char → List Char → Option (List Char)
  | _, [] => none
  | some close, x :: r =>
    if x = close then afterTerminator none r else afterTerminator (some close) r
  | none, ';' :: r => some r
  | none, '\\' :: _ :: r => afterTerminator none r
  | none, x :: r => afterTerminator (enclosures.lookup x) r

theorem mem_of_lookup {x k : Char} (h : enclosures.lookup x = some k) : (x, k) ∈ enclosures := by
  obtain ⟨before, after, hsplit, -⟩ := List.lookup_eq_some_iff.mp h
  rw [hsplit]
  simp

theorem elim_of_afterTerminator (r : List Char) (close : Option Char) (e : List Char) :
    afterTerminator close e = some [] → close.elim (Ends r e) fun k =>
      ∃ inside after, e = inside ++ k :: after ∧ k ∉ inside ∧ Ends r after := by
  fun_induction afterTerminator close e with
  | case1 => exact fun h => nomatch h
  | case2 close t ih => exact fun h => ⟨[], t, rfl, List.not_mem_nil, ih h⟩
  | case3 close x t hx ih =>
    intro h
    obtain ⟨inside, after, rfl, hinside, hends⟩ := ih h
    refine ⟨x :: inside, after, rfl, ?_, hends⟩
    rw [List.mem_cons, not_or]
    exact ⟨Ne.symm hx, hinside⟩
  | case4 t =>
    intro h
    obtain rfl := Option.some.inj h
    exact .stop
  | case5 x t ih => exact fun h => (ih h).escaped x
  | case6 x t hstop hescape ih =>
    intro h
    have hends := ih h
    cases hlookup : enclosures.lookup x with
    | some k =>
      rw [hlookup] at hends
      obtain ⟨inside, after, rfl, hinside, hends⟩ := hends
      exact hends.enclosed (x, k) inside (mem_of_lookup hlookup) hinside
    | none =>
      rw [hlookup] at hends
      refine .single x hstop ?_ ?_ hends
      · rintro rfl
        cases t with
        | nil => exact hends.ne_nil rfl
        | cons y t => exact hescape y t rfl rfl
      · rintro delimiters hmem rfl
        have hne := List.lookup_eq_none_iff.mp hlookup delimiters hmem
        simp at hne

theorem ends_of_afterTerminator (h : afterTerminator none e = some []) (r : List Char) :
    Ends r e :=
  elim_of_afterTerminator r none e h

theorem opening_ne (h : delimiters ∈ enclosures) : delimiters.1 ≠ '\\' ∧ delimiters.1 ≠ ';' := by
  revert delimiters
  decide

theorem ends_of_pieces {fuel : Nat} {pieces : List Unit} {v : List Char}
    (h : Reads (manyUpTo expressionPiece fuel) c pieces d) (hd : d.rest = ';' :: v) :
    ∃ u, c.Passes u d ∧ Ends v (u ++ [';']) := by
  induction fuel generalizing c pieces with
  | zero =>
    obtain ⟨-, rfl⟩ := reads_pure.mp h
    exact ⟨[], .refl c, .stop⟩
  | succ fuel ih =>
    rcases reads_manyUpTo_succ h with ⟨_, k, pieces', hpiece, hpieces, -⟩ | ⟨-, rfl⟩
    · obtain ⟨u, hu, hends⟩ := ih hpieces
      have hrest : k.rest = u ++ [';'] ++ v := by
        rw [hu.rest, hd, List.append_assoc]
        rfl
      rcases piece_of_reads hpiece with ⟨x, hx⟩ | ⟨delimiters, inside, hmem, hinside, hx⟩ |
        ⟨x, hx, hescape, hopens, hpasses⟩
      · exact ⟨_, hx.trans hu, hends.escaped x⟩
      · refine ⟨_, hx.trans hu, ?_⟩
        have hwhole := hends.enclosed delimiters inside hmem hinside
        simpa using hwhole
      · refine ⟨_, hpasses.trans hu, .single x hx ?_ ?_ hends⟩
        · intro hxe
          have hnil := hescape hxe
          rw [hrest] at hnil
          simp at hnil
        · intro delimiters hmem hxo
          have hclose := hopens delimiters hmem hxo
          rwa [hrest] at hclose
    · exact ⟨[], .refl d, .stop⟩

theorem ends_of_reads {text : String} (h : Reads expression c text d) :
    c.Passes text.toList d ∧ Ends d.rest text.toList := by
  obtain ⟨_, htaken, rfl⟩ := reads_taken h
  obtain ⟨pieces, k, hpieces, hend⟩ := reads_bind.mp htaken
  have hlast := reads_word.mp hend
  obtain ⟨u, hu, hends⟩ := ends_of_pieces hpieces hlast.rest
  have hall := hu.trans hlast
  have htext : c.rest.take (d.index - c.index) = u ++ [';'] := by
    rw [hall.index, Nat.add_sub_cancel_left, hall.rest, List.take_left]
    rfl
  rw [String.toList_ofList, htext]
  exact ⟨hall, hends⟩

theorem declines_escape {x : Char} (hx : x ≠ '\\') (s : List Char) :
    (do word "\\"; let _ ← one "[_]" fun _ => true : Reader Unit).Declines (x :: s) := by
  refine (declines_word ?_).bind _
  rintro ⟨t, ht⟩
  exact hx (List.cons.inj ht).1.symm

theorem takes_escaped (x : Char) (s : List Char) :
    expressionPiece.Takes ('\\' :: x :: s) () s := by
  have hslash := takes_word "\\" (x :: s)
  have hone : (one "[_]" fun _ => true).Takes (x :: s) x s := takes_one rfl s
  exact (hslash.bind (hone.bind (takes_pure () s))).orElse _

theorem takes_enclosed_piece {inside : List Char} (hmem : delimiters ∈ enclosures)
    (hinside : delimiters.2 ∉ inside) (s : List Char) :
    expressionPiece.Takes (delimiters.1 :: inside ++ delimiters.2 :: s) () s := by
  have htakes := takes_enclosed delimiters.1 hinside s
  refine (declines_escape (opening_ne hmem).1 _).orElse_takes ?_
  simp only [enclosures, List.mem_cons, List.not_mem_nil, or_false] at hmem
  rcases hmem with rfl | rfl | rfl | rfl
  · exact htakes.orElse _
  · exact (declines_enclosed (by decide) _).orElse_takes (htakes.orElse _)
  · exact (declines_enclosed (by decide) _).orElse_takes
      ((declines_enclosed (by decide) _).orElse_takes (htakes.orElse _))
  · exact (declines_enclosed (by decide) _).orElse_takes
      ((declines_enclosed (by decide) _).orElse_takes
        ((declines_enclosed (by decide) _).orElse_takes (htakes.orElse _)))

theorem declines_opening {x : Char} {s : List Char} (delimiters : Char × Char)
    (hmem : delimiters ∈ enclosures)
    (hopens : ∀ delimiters ∈ enclosures, x = delimiters.1 → delimiters.2 ∉ s) :
    (Reader.enclosed delimiters.1 delimiters.2).Declines (x :: s) := by
  by_cases hx : x = delimiters.1
  · rw [hx]
    exact declines_enclosed_of_unclosed (hopens delimiters hmem hx)
  · exact declines_enclosed hx s

theorem takes_single {x : Char} {s : List Char} (hx : x ≠ ';') (hescape : x ≠ '\\')
    (hopens : ∀ delimiters ∈ enclosures, x = delimiters.1 → delimiters.2 ∉ s) :
    expressionPiece.Takes (x :: s) () s := by
  have hone : (one "[^ ';']" (· ≠ ';')).Takes (x :: s) x s := takes_one (by simpa using hx) s
  refine (declines_escape hescape s).orElse_takes ?_
  refine (declines_opening ('"', '"') (by decide) hopens).orElse_takes ?_
  refine (declines_opening ('/', '/') (by decide) hopens).orElse_takes ?_
  refine (declines_opening ('{', '}') (by decide) hopens).orElse_takes ?_
  refine (declines_opening ('<', '>') (by decide) hopens).orElse_takes ?_
  exact hone.bind (takes_pure () s)

theorem declines_terminator (s : List Char) : expressionPiece.Declines (';' :: s) := by
  refine (declines_escape (by decide) s).orElse ?_
  refine (declines_enclosed (by decide) s).orElse ?_
  refine (declines_enclosed (by decide) s).orElse ?_
  refine (declines_enclosed (by decide) s).orElse ?_
  refine (declines_enclosed (by decide) s).orElse ?_
  refine (declines_one ?_).bind _
  rintro x ⟨⟩
  rfl

theorem Ends.exists_pieces (h : Ends r e) :
    ∃ pieces, TakesAll expressionPiece (e ++ r) pieces (';' :: r) := by
  induction h with
  | stop => exact ⟨[], .stop (declines_terminator r)⟩
  | @escaped x e _ ih =>
    obtain ⟨pieces, hpieces⟩ := ih
    refine ⟨() :: pieces, .more (takes_escaped x (e ++ r)) ?_ hpieces⟩
    simp only [List.cons_append, List.length_cons]
    omega
  | @enclosed delimiters inside e hmem hinside _ ih =>
    obtain ⟨pieces, hpieces⟩ := ih
    have htakes := takes_enclosed_piece hmem hinside (e ++ r)
    refine ⟨() :: pieces, .more ?_ ?_ hpieces⟩
    · simpa using htakes
    · simp only [List.length_append, List.length_cons]
      omega
  | @single x e hx hescape hopens _ ih =>
    obtain ⟨pieces, hpieces⟩ := ih
    exact ⟨_, .more (takes_single hx hescape hopens) (Nat.lt_succ_self _) hpieces⟩

theorem Ends.takes (h : Ends r e) : expression.Takes (e ++ r) (String.ofList e) r := by
  obtain ⟨pieces, hpieces⟩ := h.exists_pieces
  exact (hpieces.many.bind (takes_word ";" r)).taken

theorem skipOne_of_opens (hopens : Layout.opens e = false) (hends : Ends r e) :
    Layout.skipOne (e ++ r) = none := by
  cases e with
  | nil => exact absurd rfl hends.ne_nil
  | cons x e =>
    by_cases hslash : x = '/'
    · subst hslash
      cases e with
      | nil => cases hends.getLast?_eq
      | cons y e =>
        refine Layout.skipOne_slash ?_ ?_ (e ++ r)
        · rintro rfl
          cases hopens
        · rintro rfl
          cases hopens
    · refine Layout.skipOne_other ?_ hslash (e ++ r)
      rw [← hopens, Layout.opens]
      · exact fun t hx => absurd hx hslash
      · exact fun t hx => absurd hx hslash

end Source

end SpokenGrammar
