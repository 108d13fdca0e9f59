/-
Reading lengths and bytes from data. Most operations are about bytes and
are handed data of any kind; each of them needs something in particular,
and complains about a datum that does not have it in its own words.

Besides bytes of the three kinds, a list of small numbers can be read as
bytes, and where bytes are copied a number stands for so many zeros. Text
has a length but no bytes. Bytes that their owner may still change have
both, but cannot be looked up by what they hold. Whatever does not change
can be looked up, bytes or not.
-/
import XorSpan.Capacity
import XorSpan.Datum
import XorSpan.Decimal.Whole

namespace XorSpan

/-- What a datum is expected to have. -/
inductive Need where
  | length
  /-- Bytes, and nothing else will do. -/
  | bytes
  /-- Something that bytes can be made from. -/
  | content
  /-- An encoding, without which text has no bytes. -/
  | encoding
  /-- Items to go through. -/
  | items
  /-- A value between two whole numbers. -/
  | number
  /-- Bits to move to the right. -/
  | bits
  /-- Contents that stay as they are. -/
  | constancy
  /-- A hex text. -/
  | hex
  /-- Blanks that can be taken off. -/
  | trimming
  /-- A place among files. -/
  | path
  /-- A place among the whole numbers. -/
  | order
  /-- Something to start drawing from. -/
  | seed
deriving DecidableEq, Repr

/-- A datum of a kind that does not have what is needed. -/
structure KindError where
  need : Need
  kind : String
deriving DecidableEq, Repr

def KindError.message (e : KindError) : String :=
  match e.need with
  | .length => s!"object of type '{e.kind}' has no len()"
  | .bytes => s!"a bytes-like object is required, not '{e.kind}'"
  | .content => s!"cannot convert '{e.kind}' object to bytes"
  | .encoding => "string argument without an encoding"
  | .items => s!"'{e.kind}' object is not iterable"
  | .number => s!"'{e.kind}' object cannot be interpreted as an integer"
  | .bits => s!"unsupported operand type(s) for >>: '{e.kind}' and 'int'"
  | .constancy => s!"unhashable type: '{e.kind}'"
  | .hex => s!"'{e.kind}' object has no attribute 'hex'"
  | .trimming => s!"'{e.kind}' object has no attribute 'strip'"
  | .path => s!"expected str, bytes or os.PathLike object, not {e.kind}"
  | .order => s!"'<=' not supported between instances of '{e.kind}' and 'int'"
  | .seed =>
      "The only supported seed types are: None,\nint, float, str, bytes, and bytearray."

/-- Why no bytes are read from a datum. -/
inductive ReadError where
  | kind (error : KindError)
  /-- An item of a list is a number, but none that a byte holds. -/
  | notByte
  /-- Fewer zeros than none. -/
  | negativeCount
  | capacity (error : CapacityError)
deriving DecidableEq, Repr

def ReadError.message : ReadError → String
  | .kind error => error.message
  | .notByte => "bytes must be in range(0, 256)"
  | .negativeCount => "negative count"
  | .capacity error => error.message

/-- A way to read bytes: what is needed of a datum as a whole, of a
text, and of the items of a list; whether a number counts zeros; and
whether items are looked at one by one, of which then only the low
eight bits count and of which an empty text has none. -/
structure Reading where
  whole : Need
  text : Need
  item : Need
  counts : Bool := false
  itemwise : Bool := false
deriving DecidableEq, Repr

namespace Reading

def word : Reading := ⟨.content, .content, .number, false, false⟩

def copy : Reading := ⟨.content, .encoding, .number, true, false⟩

def bits : Reading := ⟨.items, .bits, .bits, false, true⟩

end Reading

namespace Datum

/-- The complaint that a datum lacks what is needed. -/
def lacks (d : Datum) (need : Need) : KindError := ⟨need, d.kind⟩

/-- The length of a datum that has one. -/
def length (d : Datum) : Except KindError Nat :=
  match d with
  | .bytes b | .buffer b | .view b => .ok b.size
  | .str s => .ok s.length
  | .list items | .tuple items => .ok items.length
  | .dict entries => .ok entries.length
  | d => .error (d.lacks .length)

/-- A whole number; a truth value counts as 0 or 1. -/
def number? : Datum → Option Int
  | .int n => some n
  | .bool b => some b.toInt
  | _ => none

/-- One byte, from an item of a list. -/
def byte (r : Reading) (d : Datum) : Except ReadError UInt8 :=
  match d.number? with
  | none => .error (.kind (d.lacks r.item))
  | some n =>
      if r.itemwise || (0 ≤ n && n < 256) then .ok (UInt8.ofNat (n % 256).toNat)
      else .error .notByte

/-- So many zeros. -/
def zeros (count : Int) : Except ReadError Bytes :=
  if !Capacity.counts64 count then .error (.capacity .index)
  else if count < 0 then .error .negativeCount
  else match Capacity.checkValue count with
    | .ok () => .ok (Bytes.zeros count.toNat)
    | .error e => .error (.capacity e)

/-- The bytes of a datum, read in some way. -/
def read (r : Reading) (d : Datum) : Except ReadError Bytes :=
  match d with
  | .bytes b | .buffer b | .view b => .ok b
  | .list items | .tuple items => (items.mapM (byte r)).map List.toArray
  | .str s =>
      if r.itemwise && s.isEmpty then .ok #[]
      else .error (.kind ((Datum.str s).lacks r.text))
  | d =>
      match if r.counts then d.number? else none with
      | some n => zeros n
      | none => .error (.kind (d.lacks r.whole))

/-- What a datum holds does not change. -/
def checkConstant (d : Datum) : Except KindError Unit :=
  match d with
  | .buffer _ | .list _ | .dict _ => .error (d.lacks .constancy)
  | _ => .ok ()

/-- The whole number that a datum is, be it a truth value or a
fraction. -/
def whole? : Datum → Option Int
  | .float x => Decimal.whole? x
  | d => d.number?

/-- Two data without bytes are one thing to look up. A truth value is
its number. -/
def alike (a b : Datum) : Bool :=
  match a, b with
  | .null, .null => true
  | .str s, .str t => s == t
  | .float x, .float y => x == y
  | a, b =>
      match a.whole?, b.whole? with
      | some m, some n => m == n
      | _, _ => false

/-- A datum counts as something. -/
def isSomething : Datum → Bool
  | .null => false
  | .bool b => b
  | .int n => n != 0
  | .float x => x != 0.0
  | .str s => !s.isEmpty
  | .bytes b | .buffer b | .view b => !b.isEmpty
  | .list items | .tuple items => !items.isEmpty
  | .dict entries => !entries.isEmpty
  | .other _ => true

/-- Every item of a datum counts as nothing. -/
def isZero (d : Datum) : Except KindError Bool :=
  match d with
  | .bytes b | .buffer b | .view b => .ok b.isZero
  | .list items | .tuple items => .ok (!items.any isSomething)
  | .dict entries => .ok (!entries.any (·.1.isSomething))
  | .str s => .ok s.isEmpty
  | d => .error (d.lacks .items)

end Datum

end XorSpan
