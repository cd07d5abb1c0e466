import SpokenGrammar.Grammar.Order

namespace SpokenGrammar

def RuleTable.resolveAll (minimize : Bool) :
    List String → RuleTable → RuleTable × Except Fault Unit
  | [], t => (t, .ok ())
  | name :: rest, t =>
    match t.find name with
    | none => resolveAll minimize rest t
    | some r =>
      match r.resolve t with
      | .error f => (t, .error f)
      | .ok r => resolveAll minimize rest (t.replace name (if minimize then r.elide else r))

theorem RuleTable.names_resolveAll (minimize : Bool) (order : List String) (t : RuleTable) :
    (resolveAll minimize order t).1.names = t.names := by
  fun_induction resolveAll minimize order t with
  | case1 => rfl
  | case2 name rest t h ih => exact ih
  | case3 => rfl
  | case4 name rest t r h r' h' ih => rw [ih, names_replace]

namespace Grammar

def resolve (g : Grammar) : Grammar × Except Fault Unit :=
  match g.compositionOrder with
  | .error f => (g, .error f)
  | .ok order =>
    let (rules, result) := g.rules.resolveAll g.settings.minimize order.reverse.eraseDups
    ({ g with rules }, result)

end Grammar

end SpokenGrammar
