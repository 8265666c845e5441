import RuleSchema.Builder.Basic

/-!
# Settings of a base

What can be set on the base of a builder. A setting that a base does not have gives none.
-/

namespace RuleSchema.Base

/-- An array of other items. -/
def withItem? (item : String) : Base → Option Base
  | array _ => some (array item)
  | _ => none

/-- An object with a property, which replaces one of the same name in its place. -/
def withProperty? (name expression : String) : Base → Option Base
  | object properties => some (object (properties.put name expression))
  | _ => none

/-- An enumeration of other values. -/
def withValues? (values : List String) : Base → Option Base
  | enumeration _ target message => some (enumeration values target message)
  | _ => none

/-- An enumeration under another name. -/
def withReference? (target : Option String) : Base → Option Base
  | enumeration values _ message => some (enumeration values target message)
  | _ => none

/-- An enumeration with another message, unless it is empty. -/
def withMessage? (message : Option String) : Base → Option Base
  | enumeration values target held =>
    some (enumeration values target (((Text.nonEmpty? message).map Script.addSlashes).or held))
  | _ => none

/-- A text of another format. -/
def withOverride? (format : Option String) : Base → Option Base
  | text _ => some (text format)
  | url _ message protocol => some (url format message protocol)
  | password _ => some (password format)
  | _ => none

end RuleSchema.Base
