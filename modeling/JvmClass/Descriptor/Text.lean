import JvmClass.Descriptor.Basic

/-!
# The text of descriptors

A primitive type is one letter, a class its name between `L` and `;`, an array
one `[` per dimension before its component, and a method its parameters in
parentheses before its result, with `V` for none. Parsing accepts the texts of
types in this form, with at least one character in a class name and at most
255 dimensions.
-/

namespace JvmClass.Descriptor

/-! ## Printing -/

mutual

/-- Append the text of a type. -/
def appendTo (text : String) : Descriptor → String
  | .primitive p => text.push p.letter
  | .reference name => (text.push 'L' ++ name).push ';'
  | .array dimensions component =>
    appendTo (text ++ String.ofList (List.replicate dimensions.toNat '[')) component
  | .method parameters result =>
    appendResultTo ((appendAllTo (text.push '(') parameters).push ')') result

/-- Append the texts of several types. -/
def appendAllTo (text : String) : List Descriptor → String
  | [] => text
  | d :: ds => appendAllTo (appendTo text d) ds

/-- Append the text of a result. -/
def appendResultTo (text : String) : Option Descriptor → String
  | none => text.push 'V'
  | some d => appendTo text d

end

/-- The text of a type. -/
def text (d : Descriptor) : String := appendTo "" d

/-! ## Parsing -/

/-- Takes a primitive type or a class from the front of the characters. -/
def parseComponent? : List Char → Option (Descriptor × List Char)
  | [] => none
  | 'L' :: rest =>
    match rest.span (· != ';') with
    | (c :: name, ';' :: rest) => some (.reference (String.ofList (c :: name)), rest)
    | _ => none
  | c :: rest => (Primitive.ofLetter? c).map fun p => (.primitive p, rest)

/-- Takes a field type from the front of the characters. -/
def parseField? (chars : List Char) : Option (Descriptor × List Char) :=
  let (marks, rest) := chars.span (· == '[')
  match marks.length with
  | 0 => parseComponent? rest
  | dimensions + 1 =>
    if dimensions < 255 then
      (parseComponent? rest).map fun (component, rest) =>
        (arrayOf (UInt8.ofNat (dimensions + 1)) component, rest)
    else none

/-- Takes field types from the front of the characters as long as there are
any. `done` holds those before them, last first. Each takes at least one
character, so as many steps as characters are enough. -/
def parseFields (done : List Descriptor) : (steps : Nat) → List Char → List Descriptor × List Char
  | 0, chars => (done.reverse, chars)
  | steps + 1, chars =>
    match parseField? chars with
    | some (d, rest) => parseFields (d :: done) steps rest
    | none => (done.reverse, chars)

/-- Takes the result of a method from the front of the characters. -/
def parseResult? : List Char → Option (Option Descriptor × List Char)
  | 'V' :: rest => some (none, rest)
  | chars => (parseField? chars).map fun (d, rest) => (some d, rest)

/-- Takes a field or method type from the front of the characters. -/
def parsePrefix? : List Char → Option (Descriptor × List Char)
  | '(' :: chars =>
    match parseFields [] chars.length chars with
    | (parameters, ')' :: rest) =>
      (parseResult? rest).map fun (result, rest) => (.method parameters result, rest)
    | _ => none
  | chars => parseField? chars

/-- The type that a text names, if it names one. -/
def parse? (text : String) : Option Descriptor :=
  match parsePrefix? text.toList with
  | some (d, []) => some d
  | _ => none

/-- The type that a text names. -/
def parse (text : String) : Except Error Descriptor :=
  match parse? text with
  | some d => .ok d
  | none => .error (.malformed (.descriptor text))

end JvmClass.Descriptor
