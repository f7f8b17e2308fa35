import OstrichServer.Config.ParseFile

/-!
# Configuration texts

Lines of comments, records and blanks, the record that each line stands for, and the one that
`record_make` makes of it.  They differ for signed numbers, of which `os_atoi` makes its error code.
-/

namespace OstrichServer
namespace Config

open Dictionary

variable {F : Type} (atof : CString → F)

/-! ## Fields -/

/-- A byte that neither ends a line nor separates fields. -/
def FieldByte (c : UInt8) : Prop := c ≠ 0 ∧ c ≠ lf ∧ c ∉ blanks

theorem fieldByte_of_lt {c : UInt8} (above : 32 < c) : FieldByte c := by
  have other : ∀ d, d ≤ 32 → c ≠ d := by
    rintro d low rfl
    exact UInt8.not_lt.mpr low above
  refine ⟨other 0 (by decide), other lf (by decide), fun blank => ?_⟩
  rcases List.mem_pair.mp blank with space | tab
  · exact other 32 (by decide) space
  · exact other 9 (by decide) tab

/-- A field of a line. -/
structure Field where
  bytes : List UInt8
  nonempty : bytes ≠ []
  clear : ∀ c ∈ bytes, FieldByte c

/-- The field as a string of its own. -/
def Field.string (field : Field) : CString := ⟨field.bytes, fun nul => (field.clear 0 nul).1 rfl⟩

/-- Spaces and tabs between two fields. -/
structure Gap where
  bytes : List UInt8
  nonempty : bytes ≠ []
  blank : ∀ c ∈ bytes, c ∈ blanks

/-! ## Numbers -/

inductive Sign
  | plus
  | minus
  deriving DecidableEq

/-- The bytes of a sign, if there is one. -/
def signBytes : Option Sign → List UInt8
  | none => []
  | some .plus => [ascii '+']
  | some .minus => [ascii '-']

/-- A number with its sign. -/
def signed : Option Sign → Nat → Int
  | some .minus, n => -n
  | _, n => n

/-- A decimal number in the range of an `int`. -/
structure Numeral where
  sign : Option Sign
  digits : List UInt8
  nonempty : digits ≠ []
  decimal : ∀ c ∈ digits, ascii '0' ≤ c ∧ c ≤ ascii '9'
  inRange : -2 ^ 31 ≤ signed sign (magnitude digits) ∧ signed sign (magnitude digits) < 2 ^ 31

namespace Numeral

variable (numeral : Numeral)

/-- The number that is meant. -/
def value : Int := signed numeral.sign (magnitude numeral.digits)

/-- The number that `os_atoi` gives. -/
def read : Int := if numeral.sign = none then numeral.value else osErr

theorem read_eq_value_iff :
    numeral.read = numeral.value ↔ numeral.sign = none ∨ numeral.value = -1 := by
  rw [read]
  split
  · rename_i unsigned
    exact ⟨fun _ => Or.inl unsigned, fun _ => rfl⟩
  · rename_i signs
    exact ⟨fun equal => Or.inr equal.symm, fun either => (either.resolve_left signs).symm⟩

/-- The numeral as a field. -/
def field : Field where
  bytes := signBytes numeral.sign ++ numeral.digits
  nonempty := by simp [numeral.nonempty]
  clear := by
    intro c member
    rcases List.mem_append.mp member with sign | digits
    · cases signs : numeral.sign with
      | none => simp [signs, signBytes] at sign
      | some sign' =>
          rw [signs] at sign
          cases sign' with
          | plus | minus =>
              rw [List.mem_singleton.mp sign]
              exact fieldByte_of_lt (by decide)
    · have floor : ascii '0' ≤ c := (numeral.decimal c digits).1
      exact fieldByte_of_lt (UInt8.lt_of_lt_of_le (by decide) floor)

end Numeral

/-- `os_atoi` on a numeral. -/
theorem osAtoi_numeral (numeral : Numeral) :
    osAtoi numeral.field.string = numeral.read := by
  obtain ⟨low, high⟩ := numeral.inRange
  change osNatoi (signBytes numeral.sign ++ numeral.digits) = _
  rw [Numeral.read, Numeral.value]
  cases signs : numeral.sign with
  | none =>
      rw [signs] at high
      change (magnitude numeral.digits : Int) < 2 ^ 31 at high
      change osNatoi numeral.digits = magnitude numeral.digits
      rw [osNatoi_of_decimal ⟨numeral.nonempty, numeral.decimal⟩, accumulated_of_lt (by omega)]
  | some sign => cases sign with
    | plus | minus => rfl

theorem Numeral.intOf_read (numeral : Numeral) : intOf numeral.read = numeral.read := by
  obtain ⟨low, high⟩ := numeral.inRange
  rw [intOf, read]
  split
  · rw [value]
    exact Int.bmod_eq_of_le (by simpa using low) (by simpa using high)
  · rfl

/-! ## Values -/

/-- What follows the name of a record: a type and a value. -/
inductive Value
  | string (field : Field)
  | int (numeral : Numeral)
  | float (field : Field)

namespace Value

def type : Value → CString
  | string _ => stringWord
  | int _ => intWord
  | float _ => floatWord

def field : Value → Field
  | string field => field
  | int numeral => numeral.field
  | float field => field

/-- The data that is meant. -/
def data : Value → ConfigData F
  | string field => .configString field.string
  | int numeral => .configInt numeral.value
  | float field => .configFloat (atof field.string)

/-- The data that `record_make` puts into the record. -/
def read : Value → ConfigData F
  | string field => .configString field.string
  | int numeral => .configInt numeral.read
  | float field => .configFloat (atof field.string)

/-- A number, if it has a sign, is -1, the error code of `os_atoi`. -/
def Readable : Value → Prop
  | int numeral => numeral.sign = none ∨ numeral.value = -1
  | _ => True

theorem read_eq_data_iff (value : Value) : value.read atof = value.data atof ↔ value.Readable := by
  cases value with
  | string field => exact ⟨fun _ => trivial, fun _ => rfl⟩
  | float field => exact ⟨fun _ => trivial, fun _ => rfl⟩
  | int numeral =>
      rw [read, data, ConfigData.configInt.injEq]
      exact numeral.read_eq_value_iff

theorem type_clear (value : Value) : ∀ c ∈ value.type.val, FieldByte c := by
  have above : (value.type.val.all fun c => 32 < c) = true := by
    cases value with
    | string | int | float => rfl
  intro c member
  exact fieldByte_of_lt (of_decide_eq_true (List.all_eq_true.mp above c member))

theorem type_nonempty (value : Value) : value.type.val ≠ [] := by
  cases value with
  | string | int | float => exact List.cons_ne_nil _ _

end Value

/-- `record_make` on the fields of a record. -/
theorem recordMake_eq (name : CString) (value : Value) :
    recordMake atof (some name) (some value.type) (some value.field.string) =
      some (some { data := value.read atof, name }) := by
  cases value with
  | string field => rfl
  | float field => rfl
  | int numeral =>
      have number : recordMake atof (some name) (some intWord) (some numeral.field.string) =
          some (some { data := .configInt (intOf (osAtoi numeral.field.string)), name }) := rfl
      rw [Value.type, Value.field, number, osAtoi_numeral, numeral.intOf_read]
      rfl

/-! ## Lines -/

/-- A line with a record; a first byte `#` would make it a comment. -/
structure RecordLine where
  name : Field
  notComment : name.bytes.head? ≠ some (ascii '#')
  gap : Gap
  value : Value
  gap' : Gap

namespace RecordLine

variable (line : RecordLine)

def bytes : List UInt8 :=
  line.name.bytes ++ (line.gap.bytes ++ (line.value.type.val ++
    (line.gap'.bytes ++ line.value.field.bytes)))

/-- The record that the line stands for. -/
def record : Record F := { data := line.value.data atof, name := line.name.string }

/-- The record that is made of the line. -/
def made : Record F := { data := line.value.read atof, name := line.name.string }

end RecordLine

inductive Line
  | comment (rest : List UInt8) (clear : ∀ c ∈ rest, c ≠ 0 ∧ c ≠ lf)
  | blank (bytes : List UInt8) (blank : ∀ c ∈ bytes, c ∈ blanks)
  | record (line : RecordLine)

namespace Line

def bytes : Line → List UInt8
  | comment rest _ => ascii '#' :: rest
  | blank bytes _ => bytes
  | record line => line.bytes

def IsBlank : Line → Prop
  | blank _ _ => True
  | _ => False

/-- A blank line is empty. -/
def Plain : Line → Prop
  | blank bytes _ => bytes = []
  | _ => True

def record? : Line → Option RecordLine
  | record line => some line
  | _ => none

end Line

/-- The bytes of lines; `closed` says whether the last one ends in a `'\n'`. -/
def linesBytes (closed : Bool) : List Line → List UInt8
  | [] => []
  | line :: lines =>
      line.bytes ++ if lines.isEmpty ∧ closed = false then [] else lf :: linesBytes closed lines

/-- A configuration text, with blank lines only between other lines and no name twice. -/
structure ConfigText where
  lines : List Line
  closed : Bool
  first : ∀ line ∈ lines.head?, ¬ line.IsBlank
  last : ∀ line ∈ lines.getLast?, ¬ line.IsBlank
  distinct : (lines.filterMap Line.record?).Pairwise fun line line' =>
    line.name.string ≠ line'.name.string

namespace ConfigText

variable (text : ConfigText)

def bytes : List UInt8 := linesBytes text.closed text.lines

/-- The lines with records. -/
def records : List RecordLine := text.lines.filterMap Line.record?

end ConfigText

end Config
end OstrichServer
