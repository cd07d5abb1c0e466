import SpokenGrammar.Proofs.Graph.Elide
import SpokenGrammar.Proofs.Graph.Language

namespace SpokenGrammar

namespace Graph

variable {g host guest : Graph} {P Q R : Nat → String → Prop} {p : Nat} {name : String}

/-- A graph that spans and leaves no text out, with `P` of every reference that an edge touches. -/
structure Composed (P : Nat → String → Prop) (g : Graph) : Prop where
  spanning : g.Spanning
  manifest : ∀ (i : Nat) (s : String) (weight : Option Span),
    g.tokens[i]? = some (.text s weight) → s ≠ "" → g.Touched i
  residue : ∀ (i : Nat) (name : String), g.Touched i →
    g.tokens[i]? = some (.reference name) → P i name

theorem Composed.imp (h : g.Composed P) (hPQ : ∀ i name, P i name → Q i name) : g.Composed Q :=
  ⟨h.spanning, h.manifest, fun i name hi hname => hPQ i name (h.residue i name hi hname)⟩

theorem Composed.settled (h : g.Composed fun _ _ => False) : g.Settled :=
  fun i name hi hname => h.residue i name hi hname

theorem Composed.splice (hh : host.Composed Q) (hg : guest.Composed P)
    (h : host.splice guest p = .ok g) (hp : host.Touched p)
    (htoken : host.tokens[p]? = some (.reference name))
    (hold : ∀ i name, i ≠ p → Q i name → R i name)
    (hnew : ∀ i name, P i name → R (i + host.tokens.length) name) : g.Composed R := by
  have hleft : ∀ i, i < host.tokens.length → g.tokens[i]? = host.tokens[i]? := by
    intro i hi
    rw [tokens_splice h, List.getElem?_append_left hi]
  have hright : ∀ i, g.tokens[i + host.tokens.length]? = guest.tokens[i]? := by
    intro i
    rw [tokens_splice h, List.getElem?_append_right (Nat.le_add_left ..), Nat.add_sub_cancel]
  constructor
  · exact spanning_splice hh.spanning hg.spanning h hp
  · intro i s weight hi hs
    by_cases hlt : i < host.tokens.length
    · rw [hleft i hlt] at hi
      have hip : i ≠ p := by
        rintro rfl
        cases hi.symm.trans htoken
      exact touched_splice_host hh.spanning hg.spanning h (hh.manifest i s weight hi hs) hip
    · obtain ⟨y, rfl⟩ := Nat.exists_eq_add_of_le' (Nat.le_of_not_lt hlt)
      rw [hright] at hi
      exact touched_splice_guest hh.spanning hg.spanning h (hg.manifest y s weight hi hs)
  · intro i name' hi hname
    rcases token_splice_cases hh.spanning hg.spanning h hi hname with
      ⟨hip, hi, htoken'⟩ | ⟨y, hy, htoken', rfl⟩
    · exact hold i name' hip (hh.residue i name' hi htoken')
    · exact hnew y name' (hg.residue y name' hy htoken')

theorem Composed.elide (h : g.Composed P) : g.elide.Composed P := by
  obtain ⟨s, t, hspan⟩ := h.spanning
  constructor
  · exact ⟨s, t, hspan.elide⟩
  · intro i text weight hi htext
    rw [tokens_elide] at hi
    refine hspan.touched_elide_iff.mpr ⟨h.manifest i text weight hi htext, fun hinner => ?_⟩
    obtain ⟨a, ha, hstructural, -⟩ := mem_inner.mp hinner
    obtain rfl := Option.some.inj (hi.symm.trans ha)
    exact htext (by simpa [Token.isStructural] using hstructural)
  · intro i name hi hname
    rw [tokens_elide] at hname
    exact h.residue i name (touched_of_elide hi) hname

end Graph

end SpokenGrammar
