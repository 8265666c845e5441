import RuleSchema.Builder.Text
import RuleSchema.Text.Case

/-!
# Rules on files

Sizes are declared in kilobytes and checked in bytes. Extensions are checked by the media types that
belong to them. Dimensions of images are checked after the image has been read.
-/

namespace RuleSchema.FileRule

/-- Media types of images. -/
def imageTypes : List String :=
  ["image/jpeg", "image/png", "image/gif", "image/bmp", "image/webp"]

/-- Media types by extension. -/
def typeOfExtension : List (String × String) :=
  [("jpg", "image/jpeg"), ("jpeg", "image/jpeg"), ("png", "image/png"), ("gif", "image/gif"),
    ("bmp", "image/bmp"), ("svg", "image/svg+xml"), ("webp", "image/webp"),
    ("pdf", "application/pdf"), ("doc", "application/msword"),
    ("docx", "application/vnd.openxmlformats-officedocument.wordprocessingml.document"),
    ("xls", "application/vnd.ms-excel"),
    ("xlsx", "application/vnd.openxmlformats-officedocument.spreadsheetml.sheet"),
    ("csv", "text/csv"), ("txt", "text/plain"), ("zip", "application/zip"), ("mp3", "audio/mpeg"),
    ("mp4", "video/mp4"), ("avi", "video/x-msvideo"), ("mov", "video/quicktime")]

/-- Comparisons of a dimension, by constraint. -/
def comparisons : List (String × String) :=
  [("width", "img.width === "), ("height", "img.height === "), ("min_width", "img.width >= "),
    ("max_width", "img.width <= "), ("min_height", "img.height >= "),
    ("max_height", "img.height <= ")]

/-- The call that checks media types. -/
def mimeCall (types : List String) (message : Option String) : String :=
  ".mime(" ++ Script.literalList types ++ Script.messageArgument message ++ ")"

/-- Is an image, unless media types are checked already. -/
def image : RuleMethod := fun arguments message => do
  if (← get).hasCall "mime" then return
  let types := if (arguments.map Argument.display).contains "allow_svg"
    then imageTypes ++ ["image/svg+xml"] else imageTypes
  Building.add (mimeCall types message)

/-- Has one of the media types. -/
def mediaTypes : RuleMethod := fun arguments message =>
  if arguments.isEmpty then pure ()
  else Building.replace "mime" (mimeCall (arguments.map Argument.display) message)

/-- The media type of a written extension. -/
def mediaType? (extension : String) : Option String :=
  typeOfExtension.lookup (String.ofList
    (Text.stripStart (· == '.') (Text.lowerChars extension.toList)))

/-- Has one of the extensions; unknown ones are passed over. -/
def extensions : RuleMethod := fun arguments message =>
  let types := (arguments.filterMap fun a => mediaType? a.display).eraseDups
  mediaTypes (types.map fun t => some (.text t)) message

/-- The first argument in bytes, if it is a number. -/
def bytes? (arguments : List Argument) : Building (Option Number) := do
  match ← Building.first arguments with
  | none => throw (.wrongSort none)
  | some p => return (← Building.ofExcept p.number?).map (·.mulNat 1024)

/-- At least or at most as large as the argument. -/
def bounded : String → RuleMethod := Building.compare bytes?

/-- As large as the argument. -/
def size : RuleMethod := Building.exactly bytes?

/-- Between the first two arguments. -/
def between : RuleMethod := Building.within bytes?

/-- A ratio, written as a quotient or as a number. -/
def ratio (value : List Char) : String :=
  match Text.cutFirst '/' value with
  | (above, some below) =>
    match Binary64.ofChars? above, Binary64.ofChars? below with
    | some x, some y => if y.isZero then String.ofList value else (x.div y).text
    | _, _ => String.ofList value
  | (_, none) => numeral value
where
  /-- A number where the text is one. -/
  numeral (value : List Char) : String :=
    match Parameter.numberOfText? (String.ofList value) with
    | some n => n.text
    | none => String.ofList value

/-- The check of one constraint on dimensions, if it is known. -/
def dimension? (argument : Argument) : Option String :=
  match Text.cutFirst '=' argument.display.toList with
  | (name, some value) =>
    let name := String.ofList (Text.trimChars name)
    let value := Text.trimChars value
    if name = "ratio" then
      some ("Math.abs((img.width / img.height) - " ++ ratio value ++ ") < 0.01")
    else (comparisons.lookup name).map (· ++ ratio.numeral value)
  | (_, none) => none

/-- The check of an image under a condition. -/
def imageCheck (condition escaped : String) : String :=
  ".refine((file) => \x7b\n" ++
  "    if (!file) return true;\n" ++
  "    return new Promise((resolve) => \x7b\n" ++
  "        const reader = new FileReader();\n" ++
  "        reader.onload = (e) => \x7b\n" ++
  "            const img = new Image();\n" ++
  "            img.onload = () => \x7b\n" ++
  "                resolve(" ++ condition ++ ");\n" ++
  "            \x7d;\n" ++
  "            img.onerror = () => resolve(false);\n" ++
  "            img.src = e.target?.result as string;\n" ++
  "        \x7d;\n" ++
  "        reader.onerror = () => resolve(false);\n" ++
  "        reader.readAsDataURL(file);\n" ++
  "    \x7d);\n" ++
  "\x7d, \x7b error: '" ++ escaped ++ "'\x7d)"

/-- Has the dimensions of the known constraints. -/
def dimensions : RuleMethod := fun arguments message =>
  match arguments.filterMap dimension? with
  | [] => pure ()
  | checks =>
    Building.add (imageCheck (Text.join " && " checks)
      (escapedOr message "The image has invalid dimensions."))

/-- The rules of files. -/
def methods : List (String × RuleMethod) :=
  [("required", Building.required), ("file", Building.nothing), ("image", image),
    ("mimes", extensions), ("extensions", extensions), ("mimetypes", mediaTypes),
    ("min", bounded "min"), ("max", bounded "max"), ("size", size), ("between", between),
    ("dimensions", dimensions)]

end RuleSchema.FileRule
