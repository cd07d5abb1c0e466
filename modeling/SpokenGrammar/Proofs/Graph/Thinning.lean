import SpokenGrammar.Proofs.Graph.Elide
import SpokenGrammar.Proofs.Graph.Language

namespace SpokenGrammar

def keep (dropped : List Nat) (i : Nat) : List Nat :=
  if i ∈ dropped then [] else [i]

theorem flatMap_keep (dropped p : List Nat) :
    p.flatMap (keep dropped) = p.filter (· ∉ dropped) := by
  induction p with
  | nil => rfl
  | cons i p ih =>
    rw [List.flatMap_cons, ih, keep]
    split
    · rename_i hi
      rw [List.filter_cons_of_neg (by simpa using hi), List.nil_append]
    · rename_i hi
      rw [List.filter_cons_of_pos (by simpa using hi), List.singleton_append]

theorem mem_substitute_keep {dropped : List Nat} {l : Language Nat} {p : List Nat} :
    p ∈ substitute (fun i => {keep dropped i}) l ↔ ∃ q ∈ l, p = q.filter (· ∉ dropped) := by
  rw [mem_substitute_word]
  simp only [flatMap_keep]

theorem mem_append_shift_left {l l' : List Nat} {n i : Nat} (hi : i < n) :
    i ∈ l ++ l'.map (· + n) ↔ i ∈ l := by
  have hshift : i ∉ l'.map (· + n) := by
    rw [List.mem_map]
    rintro ⟨y, -, rfl⟩
    omega
  simp [hshift]

theorem mem_append_shift_right {l l' : List Nat} {n i : Nat} (hl : ∀ i ∈ l, i < n) :
    i + n ∈ l ++ l'.map (· + n) ↔ i ∈ l' := by
  have hi : i + n ∉ l := by
    intro hi
    have hlt := hl _ hi
    omega
  simp [hi]

theorem substitute_keep {α : Type} (f : Nat → Language α) (dropped : List Nat) (i : Nat) :
    substitute f ({keep dropped i} : Language Nat) = if i ∈ dropped then 1 else f i := by
  rw [substitute_word, keep]
  split
  · rfl
  · rw [List.map_singleton, List.prod_singleton]

theorem unweighted_empty (weight : Option Span) : unweighted "" weight = [] := by
  cases weight with
  | none => rfl
  | some span =>
    rw [unweighted]
    split
    · rename_i before inside after h
      have hsplit := (Text.eq_of_sliceBytes h).1
      have hnil : before ++ inside ++ after = [] := hsplit.symm
      simp_all
    · rfl

theorem Token.language_of_isStructural {t : Token} (h : t.isStructural = true)
    (ρ : String → Language Char) : t.language ρ = 1 := by
  cases t with
  | text s weight =>
    obtain rfl : s = "" := by simpa [isStructural] using h
    rw [language, unweighted_empty]
    rfl
  | reference name => cases h
  | start => rfl
  | finish => rfl
  | mark m => rfl

namespace Graph

variable {g h host host' guest guest' : Graph} {dropped : List Nat}

/-- The paths of `h` are those of `g` without the dropped nodes, which spell nothing. -/
structure Drops (dropped : List Nat) (g h : Graph) : Prop where
  tokens : h.tokens = g.tokens
  structural : ∀ i ∈ dropped, ∃ t, g.tokens[i]? = some t ∧ t.isStructural = true
  paths : h.paths = substitute (fun i => {keep dropped i}) g.paths

def Thinned (g h : Graph) : Prop :=
  ∃ dropped, Drops dropped g h

theorem Thinned.refl (g : Graph) : Thinned g g := by
  refine ⟨[], rfl, fun i hi => absurd hi List.not_mem_nil, ?_⟩
  ext p
  rw [mem_substitute_keep]
  simp

theorem Drops.mem_paths (hd : Drops dropped g h) {p : List Nat} :
    p ∈ h.paths ↔ ∃ q ∈ g.paths, p = q.filter (· ∉ dropped) := by
  rw [hd.paths, mem_substitute_keep]

theorem drops_elide (hspan : g.Spanning) : Drops g.inner g g.elide := by
  obtain ⟨s, t, hspan⟩ := hspan
  refine ⟨tokens_elide g, ?_, ?_⟩
  · intro i hi
    obtain ⟨a, ha, hstructural, -⟩ := mem_inner.mp hi
    exact ⟨a, ha, hstructural⟩
  · ext p
    rw [mem_paths_elide hspan, mem_substitute_keep]

theorem Drops.trans {dropped' : List Nat} {k : Graph} (hd : Drops dropped g h)
    (hd' : Drops dropped' h k) : Drops (dropped ++ dropped') g k := by
  refine ⟨hd'.tokens.trans hd.tokens, ?_, ?_⟩
  · intro i hi
    rcases List.mem_append.mp hi with hi | hi
    · exact hd.structural i hi
    · obtain ⟨t, ht, hstructural⟩ := hd'.structural i hi
      exact ⟨t, hd.tokens ▸ ht, hstructural⟩
  · have hfilter : ∀ q : List Nat, (q.filter (· ∉ dropped)).filter (· ∉ dropped') =
        q.filter (· ∉ dropped ++ dropped') := by
      intro q
      rw [List.filter_filter]
      refine List.filter_congr fun i _ => ?_
      simp [Bool.and_comm]
    ext p
    rw [hd'.mem_paths, mem_substitute_keep]
    constructor
    · rintro ⟨q', hq', rfl⟩
      obtain ⟨q, hq, rfl⟩ := hd.mem_paths.mp hq'
      exact ⟨q, hq, hfilter q⟩
    · rintro ⟨q, hq, rfl⟩
      exact ⟨_, hd.mem_paths.mpr ⟨q, hq, rfl⟩, (hfilter q).symm⟩

theorem Thinned.elide (ht : Thinned g h) (hspan : h.Spanning) : Thinned g h.elide := by
  obtain ⟨dropped, hd⟩ := ht
  exact ⟨_, hd.trans (drops_elide hspan)⟩

theorem spanning_elide (hspan : g.Spanning) : g.elide.Spanning := by
  obtain ⟨s, t, hspan⟩ := hspan
  exact ⟨s, t, hspan.elide⟩

theorem Drops.letter (hd : Drops dropped g h) {ρ : String → Language Char} (i : Nat) :
    h.letter ρ i = g.letter ρ i := by
  rw [Graph.letter, hd.tokens]
  rfl

theorem Drops.language_eq (hd : Drops dropped g h) (ρ : String → Language Char) :
    h.language ρ = g.language ρ := by
  rw [language, hd.paths, substitute_substitute]
  refine substitute_congr fun p _ i _ => ?_
  rw [substitute_keep, hd.letter]
  split
  · rename_i hi
    obtain ⟨t, ht, hstructural⟩ := hd.structural i hi
    rw [letter_eq ht, Token.language_of_isStructural hstructural]
  · rfl

theorem Drops.not_mem {p : Nat} {t : Token} (hd : Drops dropped g h)
    (htoken : g.tokens[p]? = some t) (ht : t.isStructural = false) : p ∉ dropped := by
  intro hp
  obtain ⟨t', ht', hstructural⟩ := hd.structural p hp
  rw [htoken] at ht'
  rcases Option.some.inj ht' with rfl
  rw [ht] at hstructural
  cases hstructural

theorem Drops.map_paths (hd : Drops dropped g h) (n : Nat) :
    Language.map (· + n) h.paths =
      substitute (fun i => if i ∈ dropped then 1 else {[i + n]}) g.paths := by
  rw [map_eq_substitute, hd.paths, substitute_substitute]
  refine substitute_congr fun _ _ i _ => ?_
  rw [substitute_keep]

theorem Drops.splice {p : Nat} {t : Token} {dropped' : List Nat} (hd : Drops dropped host host')
    (hd' : Drops dropped' guest guest') (hh : host.Spanning) (hh' : host'.Spanning)
    (hg : guest.Spanning) (hg' : guest'.Spanning) (h : host.splice guest p = .ok g)
    (h' : host'.splice guest' p = .ok g') (htoken : host.tokens[p]? = some t)
    (ht : t.isStructural = false) :
    Drops (dropped ++ dropped'.map (· + host.tokens.length)) g g' := by
  have hlt : ∀ i ∈ dropped, i < host.tokens.length := by
    intro i hi
    obtain ⟨t', ht', -⟩ := hd.structural i hi
    exact (List.getElem?_eq_some_iff.mp ht').1
  refine ⟨?_, ?_, ?_⟩
  · rw [tokens_splice h, tokens_splice h', hd.tokens, hd'.tokens]
  · intro i hi
    rw [tokens_splice h]
    rcases List.mem_append.mp hi with hi | hi
    · rw [List.getElem?_append_left (hlt i hi)]
      exact hd.structural i hi
    · obtain ⟨y, hy, rfl⟩ := List.mem_map.mp hi
      rw [List.getElem?_append_right (Nat.le_add_left ..), Nat.add_sub_cancel]
      exact hd'.structural y hy
  · rw [paths_splice_eq hh' hg' h', paths_splice_eq hh hg h, hd.paths, hd.tokens,
      substitute_substitute, substitute_substitute]
    refine substitute_congr fun q hq i hi => ?_
    obtain ⟨s, u, hh⟩ := hh
    have hi' := hh.lt_of_touched (hh.touched_of_mem hq hi)
    rw [substitute_keep]
    by_cases hip : i = p
    · rw [if_neg (hip ▸ hd.not_mem htoken ht), detour, detour, if_pos hip, if_pos hip,
        hd'.map_paths, substitute_map]
      refine substitute_congr fun _ _ j _ => ?_
      rw [Function.comp_apply, keep]
      simp only [mem_append_shift_right hlt]
      split <;> rfl
    · rw [detour, detour, if_neg hip, if_neg hip, substitute_letter, keep]
      simp only [mem_append_shift_left hi']
      split <;> rfl

theorem Thinned.splice {p : Nat} {t : Token} (hthin : Thinned host host')
    (hthin' : Thinned guest guest') (hh : host.Spanning) (hh' : host'.Spanning)
    (hg : guest.Spanning) (hg' : guest'.Spanning) (h : host.splice guest p = .ok g)
    (h' : host'.splice guest' p = .ok g') (htoken : host.tokens[p]? = some t)
    (ht : t.isStructural = false) : Thinned g g' := by
  obtain ⟨dropped, hd⟩ := hthin
  obtain ⟨dropped', hd'⟩ := hthin'
  exact ⟨_, hd.splice hd' hh hh' hg hg' h h' htoken ht⟩

theorem language_elide (hspan : g.Spanning) (ρ : String → Language Char) :
    g.elide.language ρ = g.language ρ :=
  (drops_elide hspan).language_eq ρ

end Graph

end SpokenGrammar
