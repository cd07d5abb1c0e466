import SpokenGrammar.Proofs.Graph.Splice
import SpokenGrammar.Proofs.Phrase.Basic

namespace SpokenGrammar

namespace Graph

variable {host guest g : Graph} {ρ : String → Language Char} {p i : Nat}

def Spanning (g : Graph) : Prop :=
  ∃ s t, g.Spans s t

def letter (ρ : String → Language Char) (g : Graph) (i : Nat) : Language Char :=
  (g.tokens[i]?).elim 1 (Token.language ρ)

def language (ρ : String → Language Char) (g : Graph) : Language Char :=
  substitute (g.letter ρ) g.paths

theorem letter_eq {t : Token} (h : g.tokens[i]? = some t) : g.letter ρ i = t.language ρ := by
  rw [letter, h]
  rfl

theorem letter_splice_host (h : host.splice guest p = .ok g) (hi : i < host.tokens.length) :
    g.letter ρ i = host.letter ρ i := by
  rw [letter, tokens_splice h, List.getElem?_append_left hi]
  rfl

theorem letter_splice_guest (h : host.splice guest p = .ok g) (i : Nat) :
    g.letter ρ (i + host.tokens.length) = guest.letter ρ i := by
  rw [letter, tokens_splice h, List.getElem?_append_right (Nat.le_add_left ..),
    Nat.add_sub_cancel]
  rfl

section Splice

variable (hh : host.Spanning) (hg : guest.Spanning) (h : host.splice guest p = .ok g)
include hh hg h

theorem spanning_splice (hp : host.Touched p) : g.Spanning := by
  obtain ⟨s, t, hh⟩ := hh
  obtain ⟨u, v, hg⟩ := hg
  exact ⟨_, _, spans_splice hh hg h hp⟩

theorem touched_splice_cases (hi : g.Touched i) :
    (i ≠ p ∧ host.Touched i) ∨ ∃ y, guest.Touched y ∧ i = y + host.tokens.length := by
  obtain ⟨s, t, hh⟩ := hh
  obtain ⟨u, v, hg⟩ := hg
  exact (touched_splice hh hg h).mp hi

theorem touched_splice_host (hi : host.Touched i) (hip : i ≠ p) : g.Touched i := by
  obtain ⟨s, t, hh⟩ := hh
  obtain ⟨u, v, hg⟩ := hg
  exact (touched_splice hh hg h).mpr (.inl ⟨hip, hi⟩)

theorem touched_splice_guest (hi : guest.Touched i) : g.Touched (i + host.tokens.length) := by
  obtain ⟨s, t, hh⟩ := hh
  obtain ⟨u, v, hg⟩ := hg
  exact (touched_splice hh hg h).mpr (.inr ⟨i, hi, rfl⟩)

theorem paths_splice_eq :
    g.paths = substitute (detour guest host.tokens.length p) host.paths := by
  obtain ⟨s, t, hh⟩ := hh
  obtain ⟨u, v, hg⟩ := hg
  exact paths_splice hh hg h

theorem token_splice_cases {t : Token} (hi : g.Touched i) (htoken : g.tokens[i]? = some t) :
    (i ≠ p ∧ host.Touched i ∧ host.tokens[i]? = some t) ∨
    ∃ y, guest.Touched y ∧ guest.tokens[y]? = some t ∧ i = y + host.tokens.length := by
  rw [tokens_splice h] at htoken
  rcases touched_splice_cases hh hg h hi with ⟨hip, hi⟩ | ⟨y, hy, rfl⟩
  · obtain ⟨s, t, hspan⟩ := hh
    rw [List.getElem?_append_left (hspan.lt_of_touched hi)] at htoken
    exact .inl ⟨hip, hi, htoken⟩
  · rw [List.getElem?_append_right (Nat.le_add_left ..), Nat.add_sub_cancel] at htoken
    exact .inr ⟨y, hy, htoken, rfl⟩

/-- What the guest's paths say in place of a node is said by the host's paths too, if all other
nodes say what they did before. -/
theorem substitute_splice {α : Type} {f f' : Nat → Language α}
    (hhost : ∀ i, host.Touched i → i ≠ p → f' i = f i)
    (hguest : substitute (f' ∘ (· + host.tokens.length)) guest.paths = f p) :
    substitute f' g.paths = substitute f host.paths := by
  rw [paths_splice_eq hh hg h, substitute_substitute]
  refine substitute_congr fun q hq i hi => ?_
  obtain ⟨s, t, hh⟩ := hh
  rw [detour]
  split
  · rename_i hip
    rw [hip, substitute_map, hguest]
  · rename_i hip
    rw [substitute_letter, hhost i (hh.touched_of_mem hq hi) hip]

theorem language_splice {name : String}
    (htoken : host.tokens[p]? = some (.reference name)) (hname : guest.language ρ = ρ name) :
    g.language ρ = host.language ρ := by
  have hguest : g.letter ρ ∘ (· + host.tokens.length) = guest.letter ρ :=
    funext (letter_splice_guest h)
  refine substitute_splice hh hg h (fun i hi _ => ?_) ?_
  · obtain ⟨s, t, hh⟩ := hh
    exact letter_splice_host h (hh.lt_of_touched hi)
  · rw [hguest, letter_eq htoken]
    exact hname

end Splice

def Settled (g : Graph) : Prop :=
  ∀ i name, g.Touched i → g.tokens[i]? ≠ some (.reference name)

def Unweighted (g : Graph) : Prop :=
  ∀ s weight, .text s weight ∈ g.tokens → weight = none

def spell (g : Graph) (p : List Nat) : List Char :=
  p.flatMap fun i => (g.tokens[i]?).elim [] fun t => t.spelling.toList

theorem mem_language_of_names (hspan : g.Spanning) (hnames : ∀ i name, g.Touched i →
      g.tokens[i]? = some (.reference name) → ρ name = {name.toList})
    (hunweighted : g.Unweighted) {w : List Char} :
    w ∈ g.language ρ ↔ ∃ p ∈ g.paths, w = g.spell p := by
  have hletters : g.language ρ = substitute
      (fun i => ({(g.tokens[i]?).elim [] fun t => t.spelling.toList} : Language Char))
      g.paths := by
    refine substitute_congr fun p hp i hi => ?_
    obtain ⟨s, t, hspan⟩ := hspan
    have htouched := hspan.touched_of_mem hp hi
    rw [letter]
    cases htoken : g.tokens[i]? with
    | none => rfl
    | some token =>
      cases token with
      | reference name => exact hnames i name htouched htoken
      | text s weight =>
        obtain rfl := hunweighted s weight (List.mem_of_getElem? htoken)
        rfl
      | start => rfl
      | finish => rfl
      | mark m => rfl
  rw [hletters, mem_substitute_word]
  rfl

theorem mem_language (hspan : g.Spanning) (hsettled : g.Settled) (hunweighted : g.Unweighted)
    {w : List Char} : w ∈ g.language ρ ↔ ∃ p ∈ g.paths, w = g.spell p :=
  mem_language_of_names hspan (fun i name hi ht => absurd ht (hsettled i name hi)) hunweighted

end Graph

end SpokenGrammar
