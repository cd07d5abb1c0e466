import SpokenGrammar.Proofs.Graph.Assembly
import SpokenGrammar.Proofs.Phrase.Basic

namespace SpokenGrammar

def Clause.snoc (a : Atom) : Clause → Clause
  | .nil => .cons a .nil
  | .cons b rest => .cons b (rest.snoc a)

theorem Clause.tokens_snoc (a : Atom) (c : Clause) : (c.snoc a).tokens = c.tokens ++ a.tokens := by
  match c with
  | .nil => simp [snoc, tokens]
  | .cons b rest => rw [snoc, tokens, rest.tokens_snoc a, tokens, List.append_assoc]

def Phrase.push (a : Atom) : Phrase → Phrase
  | .only c => .only (c.snoc a)
  | .or c rest => .or c (rest.push a)

def Phrase.branch : Phrase → Phrase
  | .only c => .or c (.only .nil)
  | .or c rest => .or c rest.branch

theorem Phrase.tokens_push (a : Atom) (p : Phrase) : (p.push a).tokens = p.tokens ++ a.tokens := by
  match p with
  | .only c => exact c.tokens_snoc a
  | .or c rest =>
    rw [push, tokens, rest.tokens_push a, tokens, List.append_assoc]
    rfl

theorem Phrase.tokens_branch (p : Phrase) : p.branch.tokens = p.tokens ++ [.mark .alternative] := by
  match p with
  | .only c => rfl
  | .or c rest =>
    rw [branch, tokens, rest.tokens_branch, tokens, List.append_assoc]
    rfl

/-- A phrase that is being written, and the mark that opened its group. -/
structure Frame where
  opener : Option Mark
  phrase : Phrase

namespace Frame

def tokens (f : Frame) : List Token :=
  f.opener.toList.map Token.mark ++ f.phrase.tokens

def push (a : Atom) (f : Frame) : Frame :=
  { f with phrase := f.phrase.push a }

theorem tokens_push (a : Atom) (f : Frame) : (f.push a).tokens = f.tokens ++ a.tokens := by
  rw [tokens, push, Phrase.tokens_push, tokens, List.append_assoc]

def written : List Frame → List Token
  | [] => []
  | f :: rest => written rest ++ f.tokens

theorem written_push (a : Atom) (f : Frame) (rest : List Frame) :
    written (f.push a :: rest) = written (f :: rest) ++ a.tokens := by
  rw [written, tokens_push, written, List.append_assoc]

end Frame

namespace Assembly

variable {a b : Assembly} {i : Nat} {t : Token} {ts read : List Token} {es : List (Nat × Nat)}

/-- The open groups have the openers of the frames, which say what has been read. -/
structure Nested (a : Assembly) (read : List Token) (frames : List Frame) (inner : List Mark) :
    Prop where
  groups : a.groups.map OpenGroup.opener = inner.map some ++ [none]
  openers : frames.map Frame.opener = inner.map some ++ [none]
  written : Frame.written frames = read

theorem nested_opened : Nested opened [] [⟨none, .only .nil⟩] [] := by
  constructor
  · rfl
  · rfl
  · rfl

variable {frames : List Frame} {inner : List Mark}

theorem Nested.exists_cons (h : Nested a read frames inner) : ∃ f rest, frames = f :: rest := by
  cases frames with
  | nil => simpa using h.openers
  | cons f rest => exact ⟨f, rest, rfl⟩

theorem Nested.follow (h : Nested a read frames inner) (x : Atom) :
    ∃ frames, Nested { a with last := i } (read ++ x.tokens) frames inner := by
  obtain ⟨f, rest, rfl⟩ := h.exists_cons
  refine ⟨f.push x :: rest, h.groups, h.openers, ?_⟩
  rw [Frame.written_push, h.written]

theorem Nested.enter (h : Nested a read frames inner) (m : Mark) :
    Nested (a.enter m i).1 (read ++ [.mark m]) (⟨some m, .only .nil⟩ :: frames) (m :: inner) := by
  constructor
  · exact congrArg (some m :: ·) h.groups
  · exact congrArg (some m :: ·) h.openers
  · rw [Frame.written, h.written]
    rfl

theorem Nested.leave {m o : Mark} (h : Nested a read frames inner)
    (hleave : a.leave m i = .ok (b, es)) (ho : m.opener = some o) (x : Phrase → Atom)
    (hx : ∀ p, (x p).tokens = .mark o :: p.tokens ++ [.mark m]) :
    ∃ frames inner, Nested b (read ++ [.mark m]) frames inner := by
  obtain ⟨g, rest, hg, hopener, rfl, -⟩ := leave_eq_ok hleave
  have hgroups := h.groups
  have hframes := h.openers
  rw [hg, List.map_cons, hopener, ho] at hgroups
  cases inner with
  | nil => simp at hgroups
  | cons m' inner =>
    obtain ⟨hm, hrest⟩ := List.cons.inj hgroups
    obtain rfl : o = m' := Option.some.inj hm
    cases frames with
    | nil => simp at hframes
    | cons f rest' =>
      obtain ⟨hf, hothers⟩ := List.cons.inj hframes
      cases rest' with
      | nil => simp at hothers
      | cons f' others =>
        refine ⟨f'.push (x f.phrase) :: others, inner, hrest, hothers, ?_⟩
        have hwritten := h.written
        rw [Frame.written, Frame.tokens, hf] at hwritten
        rw [Frame.written_push, hx, ← hwritten]
        simp

theorem Nested.branch (h : Nested a read frames inner) (hbranch : a.branch i = .ok (b, es)) :
    ∃ frames, Nested b (read ++ [.mark .alternative]) frames inner := by
  obtain ⟨g, rest, hg, -, rfl⟩ := branch_eq_ok hbranch
  obtain ⟨f, others, rfl⟩ := h.exists_cons
  have hgroups := h.groups
  rw [hg] at hgroups
  refine ⟨{ f with phrase := f.phrase.branch } :: others, hgroups, h.openers, ?_⟩
  rw [Frame.written, Frame.tokens, Phrase.tokens_branch, ← h.written, Frame.written, Frame.tokens]
  simp

theorem Nested.step (h : Nested a read frames inner) (ht : t.IsInner)
    (hstep : a.step i t = .ok (b, es)) :
    ∃ frames inner, Nested b (read ++ [t]) frames inner := by
  obtain ⟨hstart, hfinish, hterminator⟩ := ht
  cases t with
  | start => exact absurd rfl hstart
  | finish => exact absurd rfl hfinish
  | reference name =>
    obtain ⟨rfl, -⟩ := Prod.mk.inj (Except.ok.inj hstep)
    obtain ⟨frames, hnested⟩ := h.follow (.reference name)
    exact ⟨frames, inner, hnested⟩
  | text s weight =>
    obtain ⟨rfl, -⟩ := Prod.mk.inj (Except.ok.inj hstep)
    obtain ⟨frames, hnested⟩ := h.follow (.text s weight)
    exact ⟨frames, inner, hnested⟩
  | mark m =>
    cases m with
    | openGroup =>
      obtain ⟨rfl, -⟩ := Prod.mk.inj (Except.ok.inj hstep)
      exact ⟨_, _, h.enter .openGroup⟩
    | openOptional =>
      obtain ⟨rfl, -⟩ := Prod.mk.inj (Except.ok.inj hstep)
      exact ⟨_, _, h.enter .openOptional⟩
    | closeGroup => exact h.leave hstep rfl .group fun _ => rfl
    | closeOptional => exact h.leave hstep rfl .optional fun _ => rfl
    | alternative =>
      obtain ⟨frames, hnested⟩ := h.branch hstep
      exact ⟨frames, inner, hnested⟩
    | terminator => exact absurd rfl hterminator

theorem Nested.steps (h : Nested a read frames inner) (hts : ∀ t ∈ ts, t.IsInner)
    (hsteps : Steps a i ts b es) : ∃ frames inner, Nested b (read ++ ts) frames inner := by
  induction hsteps generalizing read frames inner with
  | nil a i => exact ⟨frames, inner, by rwa [List.append_nil]⟩
  | @cons a b c i t ts es fs hstep _ ih =>
    obtain ⟨frames', inner', hnext⟩ := h.step (hts t List.mem_cons_self) hstep
    obtain ⟨frames'', inner'', hlast⟩ := ih hnext fun t' ht' => hts t' (List.mem_cons_of_mem _ ht')
    rw [List.append_assoc] at hlast
    exact ⟨frames'', inner'', hlast⟩

theorem Closing.exists_phrase {body : List Token} {g : Graph} (h : Closing body a es g)
    (hbody : ∀ t ∈ body, t.IsInner) : ∃ p : Phrase, body = p.tokens := by
  obtain ⟨frames, inner, hgroups, hframes, hwritten⟩ := nested_opened.steps hbody h.steps
  have hlength := congrArg List.length hgroups
  have hbalanced := h.balanced
  rw [List.length_map, List.length_append, List.length_map, List.length_singleton] at hlength
  obtain rfl : inner = [] := List.length_eq_zero_iff.mp (by omega)
  cases frames with
  | nil => cases hframes
  | cons f rest =>
    obtain ⟨hf, hrest⟩ := List.cons.inj hframes
    obtain rfl : rest = [] := List.map_eq_nil_iff.mp hrest
    refine ⟨f.phrase, ?_⟩
    rw [Frame.written, Frame.tokens, hf] at hwritten
    exact hwritten.symm

end Assembly

end SpokenGrammar
