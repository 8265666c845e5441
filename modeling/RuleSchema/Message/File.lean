import RuleSchema.Message.Catalog
import RuleSchema.Message.English
import RuleSchema.Workspace
import RuleSchema.Yaml.Document

/-!
# Message files

The messages of a locale are the built-in ones, if there are any, with those of files layered over
them in order. A directory contributes its file for the locale, if it has one. A missing file is
warned about, and so is a locale without any messages.
-/

namespace RuleSchema

namespace MessageMap

/-- The messages in a file. -/
def ofFile (w : Workspace) (path : String) : Except Fault MessageMap :=
  match w.read? path with
  | .error cause => .error (.configuration path (some (cause.message path)))
  | .ok text =>
    match Yaml.read? text with
    | some .absent => .ok []
    | some (.map entries) => .ok entries
    | some _ => .error (.configuration path (some "message file must contain a YAML mapping"))
    | none => .error (.configuration path none)

end MessageMap

namespace LocaleMessages

/-- The name of the file of a locale. -/
def fileName (locale : String) : String := locale ++ ".yml"

/-- The built-in messages of a locale; there are English ones. -/
def builtIn (locale : String) : MessageMap :=
  if Path.normalize (fileName locale) == fileName "en" then English.entries else []

/-- Messages with those of a file over them. -/
def overFile (w : Workspace) (held : MessageMap) (warnings : Nat) (path : String) : LocaleMessages :=
  ⟨(MessageMap.ofFile w path).map fun found => MessageMap.merge held found, warnings⟩

/-- Messages with those at a path over them, unless a fault has been met. -/
def layer (w : Workspace) (locale : String) (held : LocaleMessages) (path : String) :
    LocaleMessages :=
  match held.messages with
  | .error _ => held
  | .ok messages =>
    if w.isDirectory path then
      let candidate := Path.append path (fileName locale)
      if w.isPresent candidate then overFile w messages held.warnings candidate else held
    else if w.isPresent path then overFile w messages held.warnings path
    else { held with warnings := held.warnings + 1 }

/-- Messages with a warning if there are none. -/
def warnIfEmpty (held : LocaleMessages) : LocaleMessages :=
  match held.messages with
  | .ok [] => { held with warnings := held.warnings + 1 }
  | _ => held

/-- The messages of a locale, with those at the given paths over the built-in ones. -/
def ofPaths (w : Workspace) (locale : String) (paths : List String) : LocaleMessages :=
  (paths.foldl (layer w locale) ⟨.ok (builtIn locale), 0⟩).warnIfEmpty

end LocaleMessages

namespace Catalog

/-- The catalog of a locale and a fallback locale, with the messages at the given paths. -/
def ofPaths (w : Workspace) (locale : String) (fallback : Option String) (paths : List String) :
    Catalog :=
  let paths := paths.map (Path.expandHome w.home)
  ⟨.ofPaths w locale paths,
    ((Text.nonEmpty? fallback).filter (· != locale)).map fun other => .ofPaths w other paths⟩

/-- Given messages over the built-in ones of a locale, with the warning where the locale has none. -/
def overBuiltIn (locale : String) (messages : MessageMap) : Catalog × Nat :=
  let base := LocaleMessages.builtIn locale
  (.ofMap (MessageMap.merge base messages), (LocaleMessages.warnIfEmpty ⟨.ok base, 0⟩).warnings)

end Catalog

end RuleSchema
