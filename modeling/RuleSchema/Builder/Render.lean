import RuleSchema.Builder.Rules
import RuleSchema.Text.Escape

/-!
# Rendering builders

An expression is the base expression, the chained calls, an appended fragment and the suffixes for
values that may be null or missing. A replacing fragment takes the place of all but the suffixes. A
plain text without a required message is always trimmed, which is settled when it is rendered.
-/

namespace RuleSchema.Builder

/-- The suffixes for values that may be null or missing. -/
def suffixes (b : Builder) : String :=
  (if b.isNullable then ".nullable()" else "") ++ (if b.isOptional then ".optional()" else "")

/-- Whether the base expression asks for a trimming call at the end of the chain. -/
def trimsOnRender (b : Builder) : Bool :=
  match b.base with
  | .text none => b.requiredMessage.isNone
  | .password _ => true
  | _ => false

/-- A builder as it is after its base expression has been rendered. -/
def settle (b : Builder) : Builder := if b.trimsOnRender then b.replaceCall "trim" ".trim()" else b

/-- The check that a required value is not missing or empty. -/
def requiredCheck (condition : String) : Option String → String
  | some m => ".refine((val) => " ++ condition ++ ", " ++ TextRule.braces (" error: '" ++ m ++ "' ") ++ ")"
  | none => ""

/-- The condition that a text is there. -/
def textPresent : String := "val != undefined && val != null && val != ''"

/-- The options of an address. -/
def urlOptions (message required protocol : Option String) : List String :=
  (match Text.nonEmpty? message with
    | some m => ["error: '" ++ m ++ "'"]
    | none => match required with
      | some m => ["error: '" ++ m ++ "'"]
      | none => []) ++
  (match protocol with
    | some p => ["protocol: " ++ p]
    | none => [])

/-- The base expression. -/
def baseExpression (b : Builder) : String :=
  match b.base with
  | .text (some override) => override
  | .text none =>
    match b.requiredMessage with
    | some m =>
      "z.string(" ++ TextRule.braces (" error: '" ++ m ++ "' ") ++ ").trim()" ++
        requiredCheck textPresent (some m)
    | none => "z.string()"
  | .url _ message protocol =>
    let options := urlOptions message b.requiredMessage protocol
    (if options.isEmpty then "z.url()"
      else "z.url(" ++ TextRule.braces (" " ++ Text.join ", " options ++ " ") ++ ")") ++
      requiredCheck textPresent b.requiredMessage
  | .password _ =>
    "z.string()" ++ (match b.requiredMessage with
      | some m => ".refine((val) => " ++ textPresent ++ ", " ++ TextRule.braces (" error: '" ++ m ++ "'") ++ ")"
      | none => "")
  | .email message =>
    (match Text.nonEmpty? message <|> Text.nonEmpty? b.requiredMessage with
      | some m => "z.email(" ++ TextRule.braces (" error: '" ++ m ++ "' ") ++ ")"
      | none => "z.email()") ++ ".trim()"
  | .number (some m) =>
    "z.number(" ++ TextRule.braces ("error: (val) => (val != undefined && val != null ? '" ++ m ++
      "' : undefined)") ++ ")"
  | .number none =>
    "z.number()" ++ (match b.requiredMessage with
      | some m => ".refine((val) => val != undefined && val != null, " ++
          TextRule.braces (" error: '" ++ m ++ "'") ++ ")"
      | none => "")
  | .boolean => "z.boolean()"
  | .file => "z.file()"
  | .array item => "z.array(" ++ item ++ ")"
  | .object properties =>
    let entries := (properties.filter fun p => ! Text.contains p.1 ".").map
      fun p => Script.propertyKey p.1 ++ ": " ++ p.2
    if entries.isEmpty then "z.object(\x7b\x7d)"
    else "z.object(" ++ TextRule.braces (" " ++ Text.join ", " entries ++ " ") ++ ")"
  | .reference name => name
  | .enumeration values reference message =>
    let options := match Text.nonEmpty? message with
      | some m => ", " ++ TextRule.braces (" message: \"" ++ m ++ "\" ")
      | none => ""
    match Text.nonEmpty? reference with
    | some name => "z.enum(" ++ name ++ options ++ ")"
    | none => "z.enum([" ++ Text.join ", " (values.map Text.Json.encode) ++ "]" ++ options ++ ")"

/-- Whether the chained calls are part of the expression. -/
def rendersChain (b : Builder) : Bool :=
  match b.base with
  | .reference _ => false
  | .enumeration .. => false
  | _ => true

/-- How form values become truth values. -/
def coercion : String :=
  "(val) => " ++ TextRule.braces (" if (typeof val === \"string\") " ++ TextRule.braces (
    " const normalized = val.toLowerCase();" ++
    " if (normalized === \"true\" || normalized === \"1\" || normalized === \"on\" || " ++
    "normalized === \"yes\") " ++ TextRule.braces " return true; " ++
    " if (normalized === \"false\" || normalized === \"0\" || normalized === \"off\" || " ++
    "normalized === \"no\") " ++ TextRule.braces " return false; " ++ " ") ++
    " if (val === 1) " ++ TextRule.braces " return true; " ++
    " if (val === 0) " ++ TextRule.braces " return false; " ++
    " return val; ")

/-- The expression of a builder without a replacing fragment. -/
def expression (b : Builder) : String :=
  let settled := b.settle
  b.baseExpression ++ (if b.rendersChain then String.join settled.chain else "") ++
    (b.fragment.map Fragment.code).getD "" ++ b.suffixes

/-- Whether a fragment takes the place of the expression. -/
def isReplaced (b : Builder) : Bool := (b.fragment.map Fragment.isReplace).getD false

/-- The expression of a builder. -/
def render (b : Builder) : String :=
  match b.fragment with
  | some f =>
    if f.isReplace then f.code ++ b.suffixes
    else wrap b.expression
  | none => wrap b.expression
where
  /-- Truth values are coerced before they are checked. -/
  wrap (code : String) : String :=
    match b.base with
    | .boolean => "z.preprocess(" ++ coercion ++ ", " ++ code ++ ")"
    | _ => code

/-- A builder after it has been rendered. -/
def rendered (b : Builder) : Builder := if b.isReplaced then b else b.settle

/-- A builder for an inferred type. -/
def ofType (extra : Table Base) (inferred : String) : Builder :=
  if Text.startsWith inferred "enum:" then
    .ofBase (.enumeration ((Text.splitOn ',' (Text.drop 5 inferred)).filter (! Text.isEmpty ·))
      none none)
  else .ofBase (((extra.get? inferred).or (known.lookup inferred)).getD (.text none))
where
  /-- Types with a builder of their own. -/
  known : List (String × Base) :=
    [("string", .text none), ("boolean", .boolean), ("number", .number none),
      ("array", .array "z.any()"), ("object", .object []), ("email", .email none),
      ("url", .url none none none), ("password", .password none), ("file", .file)]

end RuleSchema.Builder
