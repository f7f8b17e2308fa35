import OstrichServer.Foundations.StringTokens
import OstrichServer.Config.Natoi

/-!
# The configuration store of `config.c`

`config_parse_file` cuts the text of a file into lines and the lines into fields, all in place, and
adds a record for each line to `config_hashtable`.  Where the C code would dereference `NULL`, the
functions here give nothing.  `atof` and the type of its values are parameters; opening and reading
the file, the copies that `os_strdup` makes and the memory of records that are not added are left
out.
-/

namespace OstrichServer
namespace Config

open Dictionary Loop StringTokens

/-- `'\n'` -/
abbrev lf : UInt8 := 10

/-- `" \t"` -/
abbrev blanks : List UInt8 := [32, 9]

/-- An `ssize_t` taken for an `int`. -/
def intOf (value : Int) : Int := value.bmod (2 ^ 32)

/-! ## Records -/

/-- `config_data`, with the `type` that says which member is set. -/
inductive ConfigData (F : Type)
  | configString (value : CString)
  | configInt (value : Int)
  | configFloat (value : F)
  deriving DecidableEq

/-- `record` -/
structure Record (F : Type) where
  data : ConfigData F
  name : CString
  deriving DecidableEq

/-- `"STRING"` -/
def stringWord : CString := ⟨['S', 'T', 'R', 'I', 'N', 'G'].map ascii, by decide⟩

/-- `"INT"` -/
def intWord : CString := ⟨['I', 'N', 'T'].map ascii, by decide⟩

/-- `"FLOAT"` -/
def floatWord : CString := ⟨['F', 'L', 'O', 'A', 'T'].map ascii, by decide⟩

/-- `config_hashtable` -/
abbrev Table (F : Type) : Type := Dict CString (Record F)

variable {F : Type} (atof : CString → F)

/-- `record_make`, with the record if it does not return `OS_ERR`. -/
def recordMake (name type value : Option CString) : Option (Option (Record F)) := do
  let name ← name
  let type ← type
  if type = stringWord then
    let value ← value
    return some { data := .configString value, name }
  else if type = intWord then
    let value ← value
    return some { data := .configInt (intOf (osAtoi value)), name }
  else if type = floatWord then
    let value ← value
    return some { data := .configFloat (atof value), name }
  else return none

/-! ## Lines -/

/-- The string that a pointer, unless it is `NULL`, leads to. -/
def cString (memory : List UInt8) (p : Option Nat) : Option CString :=
  p.map fun p => ⟨stringAt memory p, zero_notMem_stringAt memory p⟩

/-- The variables of `config_parse_file` that live from one line to the next. -/
structure ParseState (F : Type) where
  pbuf : List UInt8
  line : Nat
  nextln : Nat
  table : Table F

/-- `iter_to_next_line` -/
def iterToNextLine (state : ParseState F) : ParseState F :=
  let cut := strtokR state.pbuf state.nextln [lf]
  { state with pbuf := cut.memory, line := state.nextln, nextln := cut.save }

/-- How `config_parse_file` ends: with `OS_ERR`, or behind its loop, where it returns nothing. -/
inductive ParseEnd
  | osErr
  | throughText
  deriving DecidableEq

/-- The rest of a round for a line that is not a comment. -/
def recordRound (state : ParseState F) : Round (ParseState F) (Option (ParseEnd × Table F)) :=
  let name := strtokR state.pbuf state.line blanks
  let type := strtokR name.memory name.save blanks
  let value := strtokR type.memory type.save blanks
  let pbuf := value.memory
  match recordMake atof (cString pbuf name.token) (cString pbuf type.token)
      (cString pbuf value.token) with
  | none => .stop none
  | some none => .stop (some (.osErr, state.table))
  | some (some rc) =>
      match dictAdd stringKeys state.table rc.name rc with
      | none => .stop none
      | some (_, table) =>
          if pbuf.getD value.save 0 ≠ 0 then .stop (some (.osErr, table))
          else .next (iterToNextLine { state with pbuf, table })

/-- The arguments of `record_make`. -/
structure RecordArguments where
  name : Option CString
  type : Option CString
  value : Option CString

/-- What `record_make` is called with for the line at `p`. -/
def recordArguments (memory : List UInt8) (p : Nat) : RecordArguments :=
  let name := strtokR memory p blanks
  let type := strtokR name.memory name.save blanks
  let value := strtokR type.memory type.save blanks
  let pbuf := value.memory
  { name := cString pbuf name.token
    type := cString pbuf type.token
    value := cString pbuf value.token }

/-- A round of `while (*line != '\0')`. -/
def lineRound (state : ParseState F) : Round (ParseState F) (Option (ParseEnd × Table F)) :=
  if state.pbuf.getD state.line 0 = 0 then .stop (some (.throughText, state.table))
  else
    -- `while (*line == '\n')`
    let line := state.line + strspn state.pbuf state.line [lf]
    if state.pbuf.getD line 0 = ascii '#' then .next (iterToNextLine { state with line })
    else recordRound atof { state with line }

/-- The call of `record_make` in a round, if there is one. -/
def recordMakeCall (state : ParseState F) : Option RecordArguments :=
  if state.pbuf.getD state.line 0 = 0 then none
  else
    let line := state.line + strspn state.pbuf state.line [lf]
    if state.pbuf.getD line 0 = ascii '#' then none else some (recordArguments state.pbuf line)

/-- A round that calls `record_make` does what its result says. -/
theorem recordRound_eq_recordMake (state : ParseState F) :
    recordRound atof state =
      let arguments := recordArguments state.pbuf state.line
      let name := strtokR state.pbuf state.line blanks
      let type := strtokR name.memory name.save blanks
      let value := strtokR type.memory type.save blanks
      match recordMake atof arguments.name arguments.type arguments.value with
      | none => .stop none
      | some none => .stop (some (.osErr, state.table))
      | some (some rc) =>
          match dictAdd stringKeys state.table rc.name rc with
          | none => .stop none
          | some (_, table) =>
              if value.memory.getD value.save 0 ≠ 0 then .stop (some (.osErr, table))
              else .next (iterToNextLine { state with pbuf := value.memory, table }) :=
  rfl

/-- `config_parse_file` on the text of the file; every round but the last leaves a line behind. -/
def configParseFile (text : List UInt8) : Option (ParseEnd × Table F) := do
  let cut := strtokR (text ++ [0]) 0 [lf]
  let line ← cut.token
  let state := { pbuf := cut.memory, line, nextln := cut.save, table := dictCreate }
  (run (lineRound atof) (text.length + 1) state).join

/-- `get_config_record` -/
def getConfigRecord (table : Table F) (str : CString) : Option (Option (Record F)) := do
  let de ← dictFind stringKeys table str
  return de.map DictEntry.val

end Config
end OstrichServer
