import RuleSchema.Rule.Object

/-!
# Rule values

What a field may declare as its rules: a rule text, a list of rules, a rule object, an enumeration,
or any other datum, which then stands for a rule named after its sort.
-/

namespace RuleSchema

/-- The rules that a field declares. -/
inductive RuleValue where
  | absent
  | text (rules : String)
  | list (items : List RuleValue)
  | tuple (items : List RuleValue)
  | rule (object : RuleObject)
  | datum (value : Datum)
deriving Inhabited

namespace RuleValue

mutual
/-- A datum as the declaration of rules. -/
def ofDatum : Datum → RuleValue
  | .absent => absent
  | .text s => text s
  | .list items => list (ofData items)
  | .tuple items => tuple (ofData items)
  | d => datum d
/-- Data as declarations of rules. -/
def ofData : List Datum → List RuleValue
  | [] => []
  | d :: rest => ofDatum d :: ofData rest
end

end RuleValue

end RuleSchema
