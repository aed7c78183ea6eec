/-
  Field blocks, the envelope of every record: a length, then fields `name=value`, each with
  a length of its own.

  * `Fields` keeps the fields in the order of their first insertion; inserting a name again
    replaces its value in place;
  * `Fields.encode` is the written form, `Fields.write` puts the same bytes on a tape through
    a reserved length;
  * `Fields.decode` reads a block's body: every field needs a separator and a name in UTF-8,
    and of a repeated name the last value counts.
-/
import BagFile.Cursor
import BagFile.Stream
import BagFile.Sized
import BagFile.Tape
import BagFile.Text.Utf8

namespace BagFile

/-- Named byte strings, in order of insertion. -/
structure Fields where
  entries : List (String × Dense)
  deriving DecidableEq

namespace Fields

/-- The byte between a field's name and its value. -/
def separator : UInt8 := 0x3D

/-- The name of the field that holds a record's kind. -/
def kindName : String := "op"

/-! ## Contents -/

/-- A block without fields. -/
def empty : Fields := ⟨[]⟩

/-- The entries after a field is set: in place if the name is there, at the end if not. -/
def insertEntry (name : String) (value : Dense) : List (String × Dense) → List (String × Dense)
  | [] => [(name, value)]
  | e :: es => if e.1 = name then (name, value) :: es else e :: insertEntry name value es

/-- Sets a field. -/
def insert (f : Fields) (name : String) (value : Dense) : Fields :=
  ⟨insertEntry name value f.entries⟩

/-- Sets a field to a word. -/
def insertWord {α : Type} [Word α] (f : Fields) (name : String) (a : α) : Fields :=
  f.insert name (Word.encode a)

/-- Sets a field to a point in time. -/
def insertTime (f : Fields) (name : String) (t : Time) : Fields :=
  f.insert name t.encode

/-- Sets a field to a text. -/
def insertText (f : Fields) (name : String) (text : String) : Fields :=
  f.insert name (Text.encode text)

/-- The block that results from setting fields one after the other. -/
def ofList (es : List (String × Dense)) : Fields := es.foldl (fun f e => f.insert e.1 e.2) empty

/-- A block whose first field is a record's kind. -/
def ofKind (k : Kind) : Fields := empty.insertWord kindName k.byte

/-- The value of a field. -/
def get? (f : Fields) (name : String) : Option Dense :=
  (f.entries.find? (·.1 = name)).map Prod.snd

/-- Whether a field is there. -/
def contains (f : Fields) (name : String) : Bool := (f.get? name).isSome

/-- How many fields there are. -/
def size (f : Fields) : Nat := f.entries.length

/-! ## Typed access -/

/-- The value of a field that must be there. -/
def require (f : Fields) (name : String) : Except Error Dense :=
  match f.get? name with
  | some v => .ok v
  | none => .error (.malformedHeader (.missingField name))

/-- The word at the start of a field that must be there. -/
def requireWord {α : Type} [Word α] (f : Fields) (name : String) : Except Error α := do
  Word.decode (← f.require name)

/-- The point in time at the start of a field that must be there. -/
def requireTime (f : Fields) (name : String) : Except Error Time := do
  Time.decode (← f.require name)

/-- The text that is the value of the field `name`. -/
def textValue (name : String) (value : Dense) : Except Error String :=
  match Text.decode? value with
  | some s => .ok s
  | none => .error (.malformedHeader (.valueNotText name))

/-- The text of a field that must be there. -/
def requireText (f : Fields) (name : String) : Except Error String := do
  textValue name (← f.require name)

/-- The text of a field that may be missing. -/
def optionalText (f : Fields) (name : String) : Except Error (Option String) :=
  match f.get? name with
  | some v => some <$> textValue name v
  | none => .ok none

/-- The kind of record that the block heads. -/
def kind (f : Fields) : Except Error Kind := do
  let v ← f.require kindName
  if h : v.size = 1 then
    match Kind.ofByte? v[0] with
    | some k => .ok k
    | none => .error (.unknownKind v[0])
  else .error (.malformedHeader (.kindWidth v.size))

/-- Refuses a block that does not head a record of the expected kind. -/
def expectKind (f : Fields) (expected : Kind) : Except Error Unit := do
  let actual ← f.kind
  if actual ≠ expected then .error (.unexpectedKind expected actual)

/-! ## Written form -/

/-- The length of a field without its length prefix. -/
def entryLength (e : String × Dense) : Nat := (Text.encode e.1).size + 1 + e.2.size

/-- The length of the written fields, without that of the block's own length prefix. -/
def bodyLength (f : Fields) : Nat := (f.entries.map fun e => 4 + entryLength e).sum

/-- The written form of a field. -/
def encodeEntry (e : String × Dense) : Dense :=
  (Word.encode (UInt32.ofNat (entryLength e)) ++ Text.encode e.1).push separator ++ e.2

/-- The written form of a block: the length of its body, then its fields. -/
def encode (f : Fields) : Dense :=
  Word.encode (UInt32.ofNat f.bodyLength) ++ .join (f.entries.map encodeEntry)

/-- Writes a field, piece by piece. -/
def writeEntry (e : String × Dense) : Tape.Op Unit := do
  Tape.writeWord (UInt32.ofNat (entryLength e))
  Tape.write (Text.encode e.1)
  Tape.writeWord separator
  Tape.write e.2

/-- Writes a block through a reserved length, and gives that length. -/
def write (f : Fields) : Tape.Op UInt32 := do
  let slot ← Slot.reserve
  f.entries.forM writeEntry
  slot.commit

/-! ## Reading -/

/-- The field between two positions of a body, without its length prefix: the name ends at the
    first separator. -/
def decodeEntry (body : Dense) (start stop : Nat) : Except Error (String × Dense) :=
  match body.find? separator start stop with
  | none => .error (.malformedHeader (.noSeparator (Text.decodeLossy (body.extract start stop))))
  | some i =>
    match Text.decode? (body.extract start i) with
    | some name => .ok (name, body.extract (i + 1) stop)
    | none => .error (.malformedHeader .nameNotText)

/-- Adds the fields that are written in a body from a position on. -/
def decodeFrom (body : Dense) (pos : Nat) (acc : Fields) : Except Error Fields :=
  if body.size ≤ pos then .ok acc
  else if body.size < pos + 4 then .error (.malformedHeader (.fieldPastEnd pos body.size))
  else
    let start := pos + 4
    let stop := start + body.natAt pos 4
    if body.size < stop then .error (.malformedHeader (.fieldPastEnd start body.size))
    else
      match decodeEntry body start stop with
      | .error e => .error e
      | .ok e => decodeFrom body stop (acc.insert e.1 e.2)
termination_by body.size - pos
decreasing_by omega

/-- The fields written in the body of a block. -/
def decode (body : Dense) : Except Error Fields := decodeFrom body 0 empty

/-- Reads a block from a stream. -/
def read : Stream.Op Fields := do
  MonadExcept.ofExcept (decode (← Stream.readSized))

/-- Reads a block from a stream, which must head a record of the expected kind. -/
def readExpecting (expected : Kind) : Stream.Op Fields := do
  let f ← read
  MonadExcept.ofExcept (f.expectKind expected)
  return f

/-- Reads a block from memory. -/
def readCursor : Cursor.Op Fields := do
  MonadExcept.ofExcept (decode (← Cursor.readSized))

end Fields

end BagFile
