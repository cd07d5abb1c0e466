import Mathlib.Data.List.Nodup
import SpokenGrammar.Rule.Table

namespace SpokenGrammar

namespace RuleTable

variable {t : RuleTable} {name : String} {r : Rule}

theorem find_eq_some_iff : t.find name = some r ↔ (name, r) ∈ t.entries := by
  rw [find, Option.map_eq_some_iff]
  constructor
  · rintro ⟨⟨n, r'⟩, hfound, rfl⟩
    have hname : n = name := by simpa using List.find?_some hfound
    exact hname ▸ List.mem_of_find?_eq_some hfound
  · intro hmem
    have hsome : (t.entries.find? fun e => decide (e.1 = name)).isSome = true := by
      rw [List.find?_isSome]
      exact ⟨_, hmem, by simp⟩
    obtain ⟨⟨n, r'⟩, hfound⟩ := Option.isSome_iff_exists.mp hsome
    have hname : n = name := by simpa using List.find?_some hfound
    subst hname
    have hsame := List.inj_on_of_nodup_map t.distinct (List.mem_of_find?_eq_some hfound) hmem rfl
    exact ⟨(n, r'), hfound, congrArg Prod.snd hsame⟩

theorem find_eq_none_iff : t.find name = none ↔ name ∉ t.names := by
  rw [Option.eq_none_iff_forall_ne_some]
  simp only [Ne, find_eq_some_iff, names, List.mem_map, not_exists, not_and, Prod.forall]
  constructor
  · intro h n r hmem hname
    exact h r (hname ▸ hmem)
  · intro h r hmem
    exact h name r hmem rfl

theorem mem_names_iff : name ∈ t.names ↔ ∃ r, t.find name = some r := by
  rw [← not_iff_not, ← find_eq_none_iff, Option.eq_none_iff_forall_ne_some, not_exists]

theorem find_replace_self {r' : Rule} (h : t.find name = some r) :
    (t.replace name r').find name = some r' := by
  rw [find_eq_some_iff] at h ⊢
  refine List.mem_map.mpr ⟨_, h, ?_⟩
  rw [replaceEntry, if_pos rfl]

theorem find_replace_of_ne {x : String} (hx : x ≠ name) (r' : Rule) :
    (t.replace name r').find x = t.find x := by
  ext r
  rw [find_eq_some_iff, find_eq_some_iff]
  constructor
  · intro h
    obtain ⟨e, he, heq⟩ := List.mem_map.mp h
    rw [replaceEntry] at heq
    split at heq
    · exact absurd (congrArg Prod.fst heq).symm hx
    · exact heq ▸ he
  · intro h
    refine List.mem_map.mpr ⟨_, h, ?_⟩
    rw [replaceEntry, if_neg hx]

theorem find_add (h : name ∉ t.names) (r : Rule) (x : String) :
    (t.add name r).find x = if x = name then some r else t.find x := by
  have hentries : (t.add name r).entries = t.entries ++ [(name, r)] := by rw [add, dif_neg h]
  ext q
  rw [find_eq_some_iff, hentries, List.mem_append, List.mem_singleton]
  split
  · rename_i hx
    subst hx
    have hold : (x, q) ∉ t.entries := fun hmem => h (List.mem_map.mpr ⟨_, hmem, rfl⟩)
    simp [hold, eq_comm]
  · rename_i hx
    simp [find_eq_some_iff, hx]

theorem entries_eq (t : RuleTable) :
    t.entries = t.names.filterMap fun name => (t.find name).map fun r => (name, r) := by
  have hentry : ∀ e ∈ t.entries, ((t.find e.1).map fun r => (e.1, r)) = some e := by
    intro e he
    rw [find_eq_some_iff.mpr he]
    rfl
  rw [names, List.filterMap_map]
  exact (List.filterMap_some.symm.trans (List.filterMap_congr hentry).symm)

theorem eq_of_find {u : RuleTable} (hnames : t.names = u.names)
    (hfind : ∀ name, t.find name = u.find name) : t = u := by
  have hentries : t.entries = u.entries := by
    rw [t.entries_eq, u.entries_eq, hnames]
    simp only [hfind]
  cases t
  cases u
  congr

theorem add_of_mem (h : name ∈ t.names) (r : Rule) : t.add name r = t :=
  dif_pos h

theorem put_of_mem (h : name ∈ t.names) (r : Rule) : t.put name r = t.replace name r := by
  rw [put, add_of_mem]
  rwa [names_replace]

theorem put_of_not_mem (h : name ∉ t.names) (r : Rule) : t.put name r = t.add name r := by
  have hsame : t.replace name r = t := by
    refine eq_of_find (names_replace ..) fun x => ?_
    by_cases hx : x = name
    · rw [hx, find_eq_none_iff.mpr h, find_eq_none_iff, names_replace]
      exact h
    · exact find_replace_of_ne hx r
  rw [put, hsame]

end RuleTable

end SpokenGrammar
