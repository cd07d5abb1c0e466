import SpokenGrammar.Proofs.Language.Substitution
import SpokenGrammar.Punctuation

/-!
# Accounts

What an expression says up to some place in it, told without positions: the sentences that lead to
the place, and for every open group those that led to the group and those of its alternatives but
the last. An account goes on sign by sign, and it can be taken letter by letter into another
alphabet first or last.
-/

namespace SpokenGrammar

inductive Sign (α : Type) where
  | say (l : Language α)
  | mark (m : Mark)

structure Level (α : Type) where
  opener : Option Mark
  before : Language α
  ended : Language α

structure Account (α : Type) where
  said : Language α
  levels : List (Level α)

variable {α β : Type} {f : α → Language β}

def Sign.map (f : α → Language β) : Sign α → Sign β
  | .say l => .say (substitute f l)
  | .mark m => .mark m

def Level.map (f : α → Language β) (g : Level α) : Level β :=
  ⟨g.opener, substitute f g.before, substitute f g.ended⟩

namespace Account

def map (f : α → Language β) (o : Account α) : Account β :=
  ⟨substitute f o.said, o.levels.map (.map f)⟩

def opened : Account α :=
  ⟨1, [⟨none, 1, 0⟩]⟩

def say (o : Account α) (l : Language α) : Account α :=
  { o with said := o.said * l }

def enter (o : Account α) (m : Mark) : Account α :=
  { o with levels := ⟨some m, o.said, 0⟩ :: o.levels }

def leave (o : Account α) (m : Mark) : Option (Account α) :=
  match o.levels with
  | [] => none
  | g :: rest =>
    if g.opener = m.opener then
      let skip := if m = .closeOptional then g.before else 0
      some ⟨g.ended + skip + o.said, rest⟩
    else none

def branch (o : Account α) : Option (Account α) :=
  match o.levels with
  | [] => none
  | g :: rest => some ⟨g.before, { g with ended := g.ended + o.said } :: rest⟩

def terminate (o : Account α) : Account α :=
  { o with said := o.said + (o.levels.map Level.ended).sum }

def step (o : Account α) : Sign α → Option (Account α)
  | .say l => some (o.say l)
  | .mark .openGroup => some (o.enter .openGroup)
  | .mark .openOptional => some (o.enter .openOptional)
  | .mark .closeGroup => o.leave .closeGroup
  | .mark .closeOptional => o.leave .closeOptional
  | .mark .alternative => o.branch
  | .mark .terminator => some o.terminate

def run (o : Account α) (ss : List (Sign α)) : Option (Account α) :=
  ss.foldlM step o

variable {o : Account α} {s : Sign α} {ss : List (Sign α)} {l : Language α}

theorem run_cons : o.run (s :: ss) = (o.step s).bind (·.run ss) := rfl

theorem run_say : o.run (.say l :: ss) = (o.say l).run ss := rfl

theorem run_append (ts : List (Sign α)) : o.run (ss ++ ts) = (o.run ss).bind (·.run ts) :=
  List.foldlM_append

@[simp] theorem say_one (o : Account α) : o.say 1 = o := by
  rw [say, mul_one]

theorem say_nil (o : Account α) : o.say {[]} = o :=
  say_one o

@[simp] theorem say_say (o : Account α) (l m : Language α) : (o.say l).say m = o.say (l * m) := by
  rw [say, say, say, mul_assoc]

theorem map_opened : (opened : Account α).map f = opened := by
  simp [opened, map, Level.map, substitute_one, substitute_zero]

theorem map_say : (o.say l).map f = (o.map f).say (substitute f l) := by
  rw [map, say, substitute_mul]
  rfl

theorem map_enter (m : Mark) : (o.enter m).map f = (o.map f).enter m := by
  simp [map, enter, Level.map, substitute_zero]

theorem map_leave (m : Mark) : (o.map f).leave m = (o.leave m).map (map f) := by
  obtain ⟨said, levels⟩ := o
  cases levels with
  | nil => rfl
  | cons g rest =>
    simp only [leave, map, List.map_cons, Level.map]
    split
    · rw [Option.map_some, Option.some.injEq, map, substitute_add, substitute_add]
      split
      · rfl
      · rw [substitute_zero]
    · rfl

theorem map_branch : (o.map f).branch = o.branch.map (map f) := by
  obtain ⟨said, levels⟩ := o
  cases levels with
  | nil => rfl
  | cons g rest => simp [branch, map, Level.map, substitute_add]

theorem map_terminate : o.terminate.map f = (o.map f).terminate := by
  rw [map, terminate, substitute_add, substitute_sum, List.map_map]
  simp only [terminate, map, List.map_map]
  rfl

theorem step_map (o : Account α) (s : Sign α) :
    (o.map f).step (s.map f) = (o.step s).map (map f) := by
  cases s with
  | say l => exact congrArg some map_say.symm
  | mark m =>
    cases m with
    | openGroup => exact congrArg some (map_enter _).symm
    | openOptional => exact congrArg some (map_enter _).symm
    | closeGroup => exact map_leave _
    | closeOptional => exact map_leave _
    | alternative => exact map_branch
    | terminator => exact congrArg some map_terminate.symm

theorem run_map (o : Account α) (ss : List (Sign α)) :
    (o.map f).run (ss.map (.map f)) = (o.run ss).map (map f) := by
  induction ss generalizing o with
  | nil => rfl
  | cons s ss ih =>
    rw [List.map_cons, run_cons, run_cons, step_map]
    cases o.step s with
    | none => rfl
    | some o' => exact ih o'

end Account

end SpokenGrammar
