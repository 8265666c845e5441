import RuleSchema.Builder.Basic
import RuleSchema.Node.Basic
import RuleSchema.Refinement.Reference

/-!
# Branches of refinements

Each rule that relates a field to another becomes one branch of a refinement: it decides whether the
rule is violated and adds an issue with the rule's message at the field's path.
-/

namespace RuleSchema.Refinement

/-- The other field and the values of a rule that compares with a field. -/
def comparison? (scope path : String) (check : Check) : Option (String × List String) :=
  match check.parameters.map Parameter.display with
  | other :: value :: more => (reference? scope path other).map fun field => (field, value :: more)
  | _ => none

/-- A block of lines between an opening and a closing one. -/
def block (opening : String) (lines : List String) (closing : String) : String :=
  Text.join "\n" (opening :: (lines ++ [closing]))

/-- The branch of a field that another field makes required. -/
def requiredIf? (scope field : String) (r : Resolved) (check : Check) : Option String :=
  (comparison? scope r.path check).map fun (other, values) =>
    block ("if (" ++ valueCondition (accessor other) values ++ " && (" ++
        emptyCheck (accessor field) r.inferredType ++ ")) \x7b")
      (addIssue (messageOr check.message "This field is required.") (issuePath field) 1) "\x7d"

/-- The branch of a field that another field asks to be accepted or declined. -/
def decidedIf? (scope field : String) (r : Resolved) (accepted : Bool) (check : Check) :
    Option String :=
  (comparison? scope r.path check).map fun (other, values) =>
    let fallback := if accepted then "This field must be accepted."
      else "This field must be declined."
    block ("if (" ++ valueCondition (accessor other) values ++ " && !(" ++
        acceptedCheck (accessor field) accepted ++ ")) \x7b")
      (addIssue (messageOr check.message fallback) (issuePath field) 1) "\x7d"

/-- A comparison of two values by their texts. -/
def textsDiffer (one operator other : String) : String :=
  "String(" ++ one ++ " ?? '') " ++ operator ++ " String(" ++ other ++ " ?? '')"

/-- The branch of a field with a confirmation beside it. -/
def confirmed (field : String) (check : Check) : String :=
  let issue := addIssue (messageOr check.message "The confirmation does not match.")
    (issuePath field) 2
  block "\x7b"
    ([indent ++ "const confirmationValue = " ++ accessor (field ++ "_confirmation") ++ ";",
      indent ++ "const currentValue = " ++ accessor field ++ ";",
      indent ++ "if (" ++ missingCheck "confirmationValue" ++ ") \x7b"] ++ issue ++
    [indent ++ "\x7d else if (" ++ textsDiffer "currentValue" "!==" "confirmationValue" ++
      ") \x7b"] ++ issue ++ [indent ++ "\x7d"]) "\x7d"

/-- The first parameter of a check as a text. -/
def firstText (check : Check) : String := ((check.parameters.head?).map Parameter.display).getD ""

/-- The branch of a field that has to match another, or to differ from it. -/
def equality? (scope field : String) (r : Resolved) (mustMatch : Bool) (check : Check) :
    Option String :=
  if Text.isEmpty (firstText check) then none
  else (reference? scope r.path (firstText check)).map fun other =>
    let fallback := if mustMatch then "The fields must match." else "The fields must be different."
    block "\x7b"
      ([indent ++ "const currentValue = " ++ accessor field ++ ";",
        indent ++ "const otherValue = " ++ accessor other ++ ";",
        indent ++ "if (" ++
          textsDiffer "currentValue" (if mustMatch then "!==" else "===") "otherValue" ++
          ") \x7b"] ++
      addIssue (messageOr check.message fallback) (issuePath field) 2 ++ [indent ++ "\x7d"]) "\x7d"

/-- The comparison that signals a violation, by rule on dates. -/
def dateOperators : List (String × String) :=
  [("after", "<="), ("after_or_equal", "<"), ("before", ">="), ("before_or_equal", ">"),
    ("date_equals", "!==")]

/-- The start of today moved by an adjustment. -/
def dayStart (adjustment : String) : String :=
  "(() => " ++ braced (" const d = new Date(); d.setHours(0, 0, 0, 0); " ++ adjustment ++
    "return d.getTime(); ") ++ ")()"

/-- Dates relative to now. -/
def relativeDates : List (String × String) :=
  [("now", "Date.now()"), ("today", dayStart ""),
    ("tomorrow", dayStart "d.setDate(d.getDate() + 1); "),
    ("yesterday", dayStart "d.setDate(d.getDate() - 1); ")]

/-- A time stamp, or no number where there is none. -/
def timeStamp (date : String) : String :=
  "const ts = Date.parse(" ++ date ++ "); return Number.isNaN(ts) ? NaN : ts; "

/-- The date that a parameter stands for: relative, literal or the value of another field. -/
def dateReference? (scope path parameter : String) : Option String :=
  match relativeDates.lookup (Text.lower parameter) with
  | some date => some date
  | none =>
    if isDateLiteral parameter then
      some ("(() => " ++ braced (" " ++ timeStamp (Script.literal parameter)) ++ ")()")
    else (reference? scope path parameter).map fun other =>
      "(() => " ++ braced (" const raw = " ++ accessor other ++
        "; if (raw === undefined || raw === null || raw === '') " ++ braced " return NaN; " ++ " " ++
        timeStamp "String(raw)") ++ ")()"

/-- The branch of a field that is compared with a date. -/
def dateComparison? (scope field : String) (r : Resolved) (operator : String) (check : Check) :
    Option String :=
  let parameter := Text.trim (firstText check)
  if Text.isEmpty parameter then none
  else (dateReference? scope r.path parameter).map fun date =>
    let issue := addIssue (messageOr check.message "Invalid date comparison.") (issuePath field) 2
    let leave := [indent ++ indent ++ "return;", indent ++ "\x7d"]
    block "(() => \x7b"
      ([indent ++ "const currentRaw = " ++ accessor field ++ ";",
        indent ++ "if (" ++ missingCheck "currentRaw" ++ " || currentRaw === '') \x7b"] ++ leave ++
      [indent ++ "const valueTimestamp = Date.parse(String(currentRaw));",
        indent ++ "if (Number.isNaN(valueTimestamp)) \x7b"] ++ issue ++ leave ++
      [indent ++ "const referenceTimestamp = " ++ date ++ ";",
        indent ++ "if (Number.isNaN(referenceTimestamp)) \x7b"] ++ leave ++
      [indent ++ "if ((valueTimestamp " ++ operator ++ " referenceTimestamp)) \x7b"] ++ issue ++
      [indent ++ "\x7d"]) "\x7d)();"

/-- All branches of the rules of one field. -/
def branches (scope field : String) (r : Resolved) : List String :=
  (r.checksOf "required_if").filterMap (requiredIf? scope field r) ++
  (r.checksOf "accepted_if").filterMap (decidedIf? scope field r true) ++
  (r.checksOf "declined_if").filterMap (decidedIf? scope field r false) ++
  (r.check? "confirmed").toList.map (confirmed field) ++
  (r.checksOf "same").filterMap (equality? scope field r true) ++
  (r.checksOf "different").filterMap (equality? scope field r false) ++
  dateOperators.flatMap fun (rule, operator) =>
    (r.checksOf rule).filterMap (dateComparison? scope field r operator)

mutual
/-- The branches of a field and of the properties below it. Items of arrays refine themselves. -/
def collect (scope field : String) (node : Node) : List String :=
  if Text.contains field "*" then []
  else branches scope field node.head ++
    match node with
    | .object h properties => if h.isObject then collectBelow scope field properties else []
    | _ => []
/-- The branches of properties below a field. -/
def collectBelow (scope field : String) : List (String × Node) → List String
  | [] => []
  | (name, child) :: rest =>
    (if Text.contains name "." then [] else collect scope (field ++ "." ++ name) child) ++
      collectBelow scope field rest
end

/-- The branches of the properties of an object, relative to that object. -/
def collectProperties (scope : String) (node : Node) : List String :=
  node.properties.flatMap fun (name, child) =>
    if Text.contains name "." then [] else collect scope name child

end RuleSchema.Refinement
