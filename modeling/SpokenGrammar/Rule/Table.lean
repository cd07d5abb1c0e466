import SpokenGrammar.Rule.Basic

namespace SpokenGrammar

structure RuleTable where
  entries : List (String × Rule)
  distinct : (entries.map (·.1)).Nodup

def replaceEntry (name : String) (r : Rule) (entry : String × Rule) : String × Rule :=
  if entry.1 = name then (name, r) else entry

theorem map_fst_replaceEntry (name : String) (r : Rule) (entries : List (String × Rule)) :
    (entries.map (replaceEntry name r)).map (·.1) = entries.map (·.1) := by
  rw [List.map_map]
  refine List.map_congr_left fun e _ => ?_
  simp only [Function.comp, replaceEntry]
  split <;> simp_all

namespace RuleTable

def empty : RuleTable where
  entries := []
  distinct := List.nodup_nil

instance : Inhabited RuleTable := ⟨empty⟩

def names (t : RuleTable) : List String :=
  t.entries.map (·.1)

def find (t : RuleTable) (name : String) : Option Rule :=
  (t.entries.find? (·.1 = name)).map (·.2)

def contains (t : RuleTable) (name : String) : Bool :=
  t.names.contains name

theorem contains_iff {t : RuleTable} {name : String} : t.contains name = true ↔ name ∈ t.names := by
  simp [contains]

def add (t : RuleTable) (name : String) (r : Rule) : RuleTable :=
  if h : name ∈ t.names then t
  else {
    entries := t.entries ++ [(name, r)]
    distinct := by
      rw [List.map_append]
      refine List.nodup_append.2 ⟨t.distinct, by simp, ?_⟩
      rintro a ha b hb rfl
      have ha' : a = name := List.mem_singleton.1 hb
      exact h (ha' ▸ ha) }

def replace (t : RuleTable) (name : String) (r : Rule) : RuleTable where
  entries := t.entries.map (replaceEntry name r)
  distinct := by
    rw [map_fst_replaceEntry]
    exact t.distinct

theorem names_replace (t : RuleTable) (name : String) (r : Rule) :
    (t.replace name r).names = t.names :=
  map_fst_replaceEntry ..

theorem names_add {t : RuleTable} {name : String} (r : Rule) (h : name ∉ t.names) :
    (t.add name r).names = t.names ++ [name] := by
  rw [add, dif_neg h]
  simp [names]

def put (t : RuleTable) (name : String) (r : Rule) : RuleTable :=
  (t.replace name r).add name r

def references (t : RuleTable) (name : String) : List String :=
  (t.find name).elim [] Rule.references

end RuleTable

end SpokenGrammar
