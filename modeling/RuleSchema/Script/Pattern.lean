import RuleSchema.Text.Cut
import RuleSchema.Text.CharacterClass

/-!
# Patterns

Delimited patterns become pattern literals between slashes. Flags that the target does not know are
dropped, and character classes lose escapes that they do not need. A pattern wrapped in delimiters
twice is unwrapped twice.
-/

namespace RuleSchema.Script.Pattern

/-- A pattern without its delimiters. -/
structure Parts where
  delimiter : Char
  body : List Char
  flags : List Char
deriving DecidableEq, Repr

/-- The pattern inside two leading slashes, a slash, flags and a final slash. -/
def unwrapTwice? : List Char → Option Parts
  | '/' :: '/' :: rest =>
    let inner := match rest.reverse with
      | '/' :: before => some before.reverse
      | '\n' :: '/' :: before => some before.reverse
      | _ => none
    (inner.bind (Text.cutLast? '/')).map fun (body, flags) => ⟨'/', body, flags⟩
  | _ => none

/-- Whether a character can delimit a pattern. -/
def isDelimiter (c : Char) : Bool := !(Text.isWord c || Text.isBlank c || c == '\\')

/-- The pattern between a delimiter and its last occurrence, with the flags after it. -/
def unwrap? : List Char → Option Parts
  | [] => none
  | d :: rest =>
    if isDelimiter d then
      (Text.cutLast? d rest).bind fun (body, tail) =>
        let flags := match tail.getLast? with
          | some '\n' => tail.dropLast
          | _ => tail
        if flags.all Char.isAlpha then some ⟨d, body, flags⟩ else none
    else none

/-- The parts of a pattern; a text without delimiters is all body. -/
def parts (cs : List Char) : Parts :=
  match unwrapTwice? cs with
  | some p => p
  | none => (unwrap? cs).getD ⟨'/', cs, []⟩

/-- A body with a backslash in front of every slash that has none. -/
def escapeSlashes (afterBackslash : Bool) : List Char → List Char
  | [] => []
  | c :: rest =>
    if c == '/' && !afterBackslash then '\\' :: '/' :: escapeSlashes false rest
    else c :: escapeSlashes (c == '\\') rest

/-- The members of a character class without escapes of dots and of hyphens at its edges; `before`
tells whether a member precedes. -/
def classMembers (before : Bool) : List Char → List Char
  | [] => []
  | [c] => [c]
  | c :: next :: rest =>
    if c == '\\' then
      (if next == '.' then ['.']
        else if next == '-' then if before && !rest.isEmpty then ['\\', '-'] else ['-']
        else ['\\', next]) ++ classMembers true rest
    else c :: classMembers true (next :: rest)

/-- A character class without the escapes that it does not need. -/
def normalizeClass (cs : List Char) : List Char :=
  match cs with
  | '[' :: tail =>
    match tail.reverse with
    | ']' :: inner =>
      match inner.reverse with
      | '^' :: members => '[' :: '^' :: (classMembers false members ++ [']'])
      | members => '[' :: (classMembers false members ++ [']'])
    | _ => cs
  | _ => cs

/-- A body with every character class normalized; `held` is the class being read, last first. -/
def rewriteClasses : Option (List Char) → List Char → List Char
  | none, [] => []
  | some held, [] => held.reverse
  | none, c :: rest =>
    if c == '[' then rewriteClasses (some ['[']) rest else c :: rewriteClasses none rest
  | some held, c :: rest =>
    if c == ']' then normalizeClass (c :: held).reverse ++ rewriteClasses none rest
    else rewriteClasses (some (c :: held)) rest

/-- Flags that the target knows. -/
def isKnownFlag (c : Char) : Bool := c == 'i' || c == 'm' || c == 's' || c == 'u'

/-- A delimited pattern as a pattern literal. -/
def convertChars (cs : List Char) : List Char :=
  let p := parts cs
  let body := if p.delimiter == '/' then p.body else escapeSlashes false p.body
  '/' :: (rewriteClasses none body ++ '/' :: p.flags.eraseDups.filter isKnownFlag)

/-- A delimited pattern as a pattern literal. -/
def convert (s : String) : String := String.ofList (convertChars s.toList)

/-- Characters with a meaning in patterns, blanks included. -/
def isSpecial (c : Char) : Bool := "()[]\x7b\x7d?*+-|^$\\.&~# \t\n\r\x0b\x0c".toList.contains c

/-- A text as a pattern that matches it and nothing else. -/
def escapeText (s : String) : String :=
  String.ofList (s.toList.flatMap fun c =>
    if isSpecial c || c == '/' then ['\\', c] else [c])

/-- A pattern for the protocols that an address may have. -/
def ofProtocols (protocols : List String) : String :=
  match protocols.map escapeText with
  | [only] => "/^" ++ only ++ "$/"
  | several => "/^(?:" ++ Text.join "|" several ++ ")$/"

end RuleSchema.Script.Pattern
