import OstrichServer.Http.LineEnd
import OstrichServer.Http.Query

/-!
# The recorded slices are well formed

Every pointer which an accepted line leaves in the request lies among the bytes of the line, the
pointers are in order, and every string that `http_process_request_line` and
`http_process_request_uri` compute from them has a length which is not negative and stays inside
the buffer.
-/

namespace OstrichServer
namespace Http

/-! ## The form of a target -/

/-- What follows the method and its spaces in a line. -/
def targetOnwards (line : List UInt8) : List UInt8 :=
  ((line.dropWhile fun c => c = cr ∨ c = lf).dropWhile (· ≠ sp)).dropWhile (· = sp)

/-- The target of a line is a schema and an authority without a path. -/
def AbsoluteWithoutPath (line : List UInt8) : Prop :=
  ∃ authority back,
    (targetOnwards line).dropWhile isLetter = schemaMarks ++ authority ++ sp :: back ∧
      ∀ c ∈ authority, isAuthorityByte c = true

private theorem dropWhile_append_stop {p : UInt8 → Bool} {front : List UInt8} {c : UInt8}
    {back : List UInt8} (all : ∀ d ∈ front, p d = true) (stop : p c = false) :
    (front ++ c :: back).dropWhile p = c :: back := by
  rw [List.dropWhile_append_of_pos all, List.dropWhile_cons_of_neg (by simp [stop])]

/-- A byte of the bytes read as the head of what follows it. -/
private theorem drop_of_slice {seen : List UInt8} {p : Nat} {c : UInt8}
    (byte : slice seen p (p + 1) = [c]) : seen.drop p = c :: seen.drop (p + 1) := by
  have length := congrArg List.length byte
  rw [slice, List.length_drop, List.length_take] at length
  simp only [List.length_cons, List.length_nil] at length
  have parts := slice_append_slice seen (Nat.le_succ p) (show p + 1 ≤ seen.length by omega)
  rw [byte, slice_length, slice_length] at parts
  exact parts.symm

private theorem drop_eq_slice_append (seen : List UInt8) {start stop : Nat} (order : start ≤ stop)
    (inside : stop ≤ seen.length) : seen.drop start = slice seen start stop ++ seen.drop stop := by
  rw [← slice_length, ← slice_append_slice seen order inside, slice_length]

private theorem isMethodByte_ne : ∀ c, isMethodByte c = true → c ≠ sp ∧ ¬ (c = cr ∨ c = lf) := by
  decide +kernel

/-- The target begins after the spaces. -/
theorem targetOnwards_eq {base start last target : Nat} {seen : List UInt8} {marks : MethodMarks}
    {c : UInt8} (method : MethodRead base seen marks start last)
    (spaces : SpacesText seen last target) (byte : slice seen target (target + 1) = [c])
    (not_space : c ≠ sp) : targetOnwards (seen.drop base) = seen.drop target := by
  have order := method.start_le
  have after := spaces.last_lt
  have inside := spaces.start_le
  have line : seen.drop base = slice seen base start ++ seen.drop start :=
    drop_eq_slice_append seen method.base_le (by omega)
  have token : seen.drop start = slice seen start (last + 1) ++ seen.drop (last + 1) :=
    drop_eq_slice_append seen (by omega) (by omega)
  have gap : seen.drop (last + 1) = sp :: seen.drop (last + 2) := drop_of_slice method.space
  obtain ⟨first, rest, bytes⟩ : ∃ first rest, slice seen start (last + 1) = first :: rest := by
    refine List.exists_cons_of_length_pos ?_
    rw [length_slice (by omega)]
    omega
  have letter :=
    isMethodByte_ne first (method.token first (by rw [bytes]; exact List.mem_cons_self))
  have blanks : (seen.drop base).dropWhile (fun c => c = cr ∨ c = lf) = seen.drop start := by
    rw [line, token, bytes, List.cons_append]
    refine dropWhile_append_stop (fun d member => ?_) (by simpa using letter.2)
    simpa using method.blank d member
  have tokens : (seen.drop start).dropWhile (· ≠ sp) = seen.drop (last + 1) := by
    rw [token, gap]
    refine dropWhile_append_stop (fun d member => ?_) (by simp)
    simpa using (isMethodByte_ne d (method.token d member)).1
  have last_gap : (seen.drop (last + 1)).dropWhile (· = sp) = seen.drop target := by
    rw [drop_eq_slice_append seen (show last + 1 ≤ target by omega) inside,
      drop_of_slice byte]
    refine dropWhile_append_stop (fun d member => ?_) (by simpa using not_space)
    simpa using spaces.blank d member
  rw [targetOnwards, blanks, tokens, last_gap]

/-- What follows the schema. -/
theorem schema_dropWhile {seen : List UInt8} {last schema stop finish : Nat} {c : UInt8}
    (text : AuthorityText seen last schema stop finish)
    (byte : slice seen finish (finish + 1) = [c]) :
    (seen.drop schema).dropWhile isLetter =
      schemaMarks ++ slice seen (stop + 3) finish ++ c :: seen.drop (finish + 1) := by
  have inside := text.finish_le
  have order := text.start_le
  have before := text.schema.schema_lt
  have rest : seen.drop stop =
      schemaMarks ++ slice seen (stop + 3) finish ++ c :: seen.drop (finish + 1) := by
    rw [← text.marks, slice_append_slice seen (by omega) order, ← drop_of_slice byte,
      ← drop_eq_slice_append seen (by omega) inside]
  rw [drop_eq_slice_append seen before.le (by omega), rest]
  exact dropWhile_append_stop text.schema.letters (by decide)

private theorem slash_ne_space : chr '/' ≠ sp := by decide

private theorem letter_ne_space : ∀ c, isLetter c = true → c ≠ sp := by
  decide +kernel

/-- The first byte of a schema. -/
private theorem SchemaText.first {seen : List UInt8} {last schema stop : Nat}
    (text : SchemaText seen last schema stop) :
    ∃ c, slice seen schema (schema + 1) = [c] ∧ c ≠ sp := by
  have less := text.schema_lt
  have inside := text.stop_le
  have parts := slice_append_slice seen (Nat.le_succ schema) (Nat.succ_le_of_lt less)
  have length : (slice seen schema (schema + 1)).length = 1 := by
    rw [length_slice (by omega)]
    omega
  obtain ⟨c, byte⟩ := List.length_eq_one_iff.mp length
  refine ⟨c, byte, letter_ne_space c (text.letters c ?_)⟩
  rw [← parts, byte]
  exact List.mem_append_left _ (List.mem_singleton_self c)

/-- A target without a path is recorded as the slash of its schema. -/
theorem withoutPath_of_absolute {base start last : Nat} {seen : List UInt8} {r : HttpRequest}
    (method : MethodRead base seen r.methodMarks start last) (layout : LayoutDone seen r)
    (absolute : AbsoluteWithoutPath (seen.drop base)) : WithoutPath seen r := by
  obtain ⟨authority, back, form, clean⟩ := absolute
  refine layout.resolve_left ?_
  rintro ⟨target, here, inside, slash, ⟨last', origin⟩ | ⟨last', schema, stop, host, found⟩⟩
  · -- a path of its own starts with no letter and no ':'
    obtain rfl : last' = last :=
      Option.some.inj ((congrArg Places.methodEnd origin.places).symm.trans method.methodEnd)
    rw [targetOnwards_eq method origin.text slash slash_ne_space, drop_of_slice slash,
      List.dropWhile_cons_of_neg (by decide)] at form
    exact absurd (List.head_eq_of_cons_eq form) (by decide)
  · obtain ⟨port, places, -⟩ := found.places
    obtain rfl : last' = last :=
      Option.some.inj ((congrArg Places.methodEnd places).symm.trans method.methodEnd)
    obtain ⟨c, byte, not_space⟩ := found.text.schema.first
    rw [targetOnwards_eq method found.text.schema.spaces byte not_space,
      schema_dropWhile found.text slash, List.append_assoc, List.append_assoc,
      List.append_cancel_left_eq] at form
    have ends := congrArg (List.dropWhile isAuthorityByte) form
    rw [dropWhile_append_stop found.text.authority (by decide),
      dropWhile_append_stop clean (by decide)] at ends
    exact absurd (List.head_eq_of_cons_eq ends) (by decide)

/-! ## Strings inside the buffer -/

/-- The offset a pointer has in the header buffer. -/
def DataPtr.offset : DataPtr → Option Nat
  | .header p => some p
  | _ => none

/-- The pointers the parser records. -/
def HttpRequest.pointers (r : HttpRequest) : List (Option Nat) :=
  [r.requestStart, r.requestEnd, r.methodEnd, r.schemaStart, r.schemaEnd, r.hostStart, r.hostEnd,
    r.portEnd, r.uriStart, r.uriEnd, r.uriExt, r.argsStart, r.httpProtocol.data.offset]

/-- The strings that request-line handling computes. -/
def HttpRequest.strings (r : HttpRequest) : List OsString :=
  [r.requestLine, r.methodName, r.httpProtocol, r.uri, r.exten, r.unparsedUri, r.args]

/-- The host that `http_process_request_line` hands to `os_http_validate_host`. -/
def HttpRequest.host (r : HttpRequest) : OsString :=
  ⟨dataPtr r.hostStart, ptrDiff r.hostEnd r.hostStart⟩

/-- A length that is not negative, and bytes between two offsets or inside a fresh block. -/
def OsString.Inside (s : OsString) (base stop : Nat) : Prop :=
  0 ≤ s.len ∧
    match s.data with
    | .null => s.len = 0
    | .header p => base ≤ p ∧ p + s.len ≤ stop
    | .fresh size => s.len < size

theorem OsString.inside_null (base stop : Nat) : OsString.nullString.Inside base stop :=
  ⟨le_rfl, rfl⟩

theorem OsString.inside_header {base p stop : Nat} {len : Int} (after : base ≤ p) (more : 0 ≤ len)
    (before : p + len ≤ stop) : (⟨.header p, len⟩ : OsString).Inside base stop :=
  ⟨more, after, before⟩

theorem OsString.inside_fresh {base stop : Nat} {size len : Int} (more : 0 ≤ len)
    (room : len < size) : (⟨.fresh size, len⟩ : OsString).Inside base stop :=
  ⟨more, room⟩

/-! ## Order -/

/-- The extension and the arguments lie inside the target, in this order. -/
theorem Split.bounds {start : Nat} {target : List UInt8} {marks : UriMarks}
    (split : Split start target marks) :
    0 < target.length ∧
      (∀ e, marks.ext = some e → start < e ∧ e ≤ start + target.length) ∧
      ∀ a, marks.args = some a → start < a - 1 ∧ a ≤ start + target.length ∧
        ∀ e, marks.ext = some e → e < a := by
  have ext_bounds : ∀ {path : List UInt8} {e : Nat}, ExtAt start path marks.ext →
      marks.ext = some e → start < e ∧ e ≤ start + path.length := by
    intro path e at_ext here
    rw [here] at at_ext
    exact ⟨at_ext.bounds.1, at_ext.bounds.2.1⟩
  rcases split with watch | ⟨path, args, rfl, query⟩ | ⟨path, c, rest, rfl, offended⟩
  · refine ⟨watch.watched.length_pos, fun e here => ext_bounds watch.ext here, fun a given => ?_⟩
    rw [watch.given] at given
    cases given
  · have more := query.watched.length_pos
    simp only [List.length_append, List.length_cons]
    refine ⟨by omega, fun e here => ?_, fun a given => ?_⟩
    · obtain ⟨after, before⟩ := ext_bounds query.ext here
      exact ⟨after, by omega⟩
    · obtain rfl := Option.some.inj (query.given.symm.trans given)
      refine ⟨by omega, by omega, fun e here => ?_⟩
      obtain ⟨after, before⟩ := ext_bounds query.ext here
      omega
  · simp only [List.length_append, List.length_cons]
    refine ⟨by omega, fun e here => ?_, fun a given => ?_⟩
    · obtain ⟨after, before⟩ := ext_bounds offended.ext here
      exact ⟨after, by omega⟩
    · rw [offended.given] at given
      cases given

/-- The pointers of an accepted line between the offset `base` and the position of the buffer. -/
structure RecordedLine (base : Nat) (b : OsBuf) (r : HttpRequest)
    (start last target targetStop stop : Nat) : Prop where
  requestStart : r.requestStart = some start
  methodEnd : r.methodEnd = some last
  uriStart : r.uriStart = some target
  uriEnd : r.uriEnd = some targetStop
  requestEnd : r.requestEnd = some stop
  start_le : start ≤ last
  last_lt : last < target
  target_le : target ≤ targetStop
  targetStop_le : targetStop ≤ stop
  pointers : ∀ p, some p ∈ r.pointers → base ≤ p ∧ p < b.pos
  absent : AbsoluteWithoutPath (slice b.received base b.pos) →
    ∃ schemaStop, r.schemaEnd = some schemaStop ∧ target = schemaStop + 1 ∧
      targetStop = schemaStop + 2 ∧ slice b.received target targetStop = [chr '/']
  host : ∀ host, r.hostStart = some host →
    ∃ schema schemaStop hostStop, r.schemaStart = some schema ∧ r.schemaEnd = some schemaStop ∧
      r.hostEnd = some hostStop ∧ schema < schemaStop ∧ schemaStop < host ∧ host ≤ hostStop
  ext : ∀ e, r.uriExt = some e → target < e ∧ e ≤ targetStop
  args : ∀ a, r.argsStart = some a →
    target < a ∧ a ≤ targetStop ∧ ∀ e, r.uriExt = some e → e < a
  protocol : r.httpProtocol = .nullString ∨
    ∃ p, r.httpProtocol.data = .header p ∧ base ≤ p ∧ p ≤ stop
  lineEnd : slice b.received stop b.pos = [lf] ∨ slice b.received stop b.pos = [cr, lf]
  unbroken : ∀ c ∈ slice b.received start stop, c ≠ cr ∧ c ≠ lf
  blank : ∀ c ∈ slice b.received base start, c = cr ∨ c = lf
  token : (∀ c ∈ slice b.received start (last + 1), isMethodByte c = true) ∧
    slice b.received (last + 1) (last + 2) = [sp]
  method : r.method = tokenCode (slice b.received start (last + 1))

/-- Where the host lies when one is recorded. -/
theorem LayoutDone.host {seen : List UInt8} {r : HttpRequest} (layout : LayoutDone seen r) :
    (r.schemaStart = none ∧ r.schemaEnd = none ∧ r.hostStart = none ∧ r.hostEnd = none ∧
        r.portEnd = none) ∨
      ∃ last schema stop host finish, AbsoluteAt seen r.places last schema stop host finish ∧
        finish < seen.length := by
  rcases layout with ⟨target, -, inside, -, ⟨last, origin⟩ | ⟨last, schema, stop, host, found⟩⟩ |
    ⟨last, schema, stop, host, finish, found, inside, -⟩
  · have places := origin.places
    exact Or.inl ⟨congrArg Places.schemaStart places, congrArg Places.schemaEnd places,
      congrArg Places.hostStart places, congrArg Places.hostEnd places,
      congrArg Places.portEnd places⟩
  · exact Or.inr ⟨last, schema, stop, host, target, found, inside⟩
  · exact Or.inr ⟨last, schema, stop, host, finish, found, inside⟩

/-- The target begins after the method. -/
theorem LayoutDone.methodEnd_lt {seen : List UInt8} {r : HttpRequest} (layout : LayoutDone seen r)
    {last target : Nat} (methodEnd : r.methodEnd = some last) (here : r.uriStart = some target) :
    last < target := by
  rcases layout with ⟨u, uri, -, -, ⟨last', origin⟩ | ⟨last', schema, stop, host, found⟩⟩ |
    ⟨last', schema, stop, host, finish, found, -, -, uri, -⟩
  · obtain rfl := Option.some.inj (here.symm.trans uri)
    obtain rfl := Option.some.inj (methodEnd.symm.trans (congrArg Places.methodEnd origin.places))
    have := origin.text.last_lt
    omega
  · obtain ⟨port, places, -⟩ := found.places
    obtain rfl := Option.some.inj (here.symm.trans uri)
    obtain rfl := Option.some.inj (methodEnd.symm.trans (congrArg Places.methodEnd places))
    have := found.text.schema.spaces.last_lt
    have := found.text.schema.schema_lt
    have := found.start_le
    have := found.host_le
    omega
  · obtain ⟨port, places, -⟩ := found.places
    obtain rfl := Option.some.inj (here.symm.trans uri)
    obtain rfl := Option.some.inj (methodEnd.symm.trans (congrArg Places.methodEnd places))
    have := found.text.schema.spaces.last_lt
    have := found.text.schema.schema_lt
    omega

/-- The host comes after the schema. -/
theorem LayoutDone.host_order {seen : List UInt8} {r : HttpRequest} (layout : LayoutDone seen r)
    {host : Nat} (here : r.hostStart = some host) :
    ∃ schema schemaStop hostStop, r.schemaStart = some schema ∧ r.schemaEnd = some schemaStop ∧
      r.hostEnd = some hostStop ∧ schema < schemaStop ∧ schemaStop < host ∧ host ≤ hostStop := by
  rcases layout.host with ⟨-, -, none, -, -⟩ | ⟨last, schema, stop, host', finish, found, -⟩
  · rw [none] at here
    cases here
  · obtain ⟨port, places, -⟩ := found.places
    obtain rfl : stop + 3 = host :=
      Option.some.inj ((congrArg Places.hostStart places).symm.trans here)
    exact ⟨schema, stop, host', congrArg Places.schemaStart places,
      congrArg Places.schemaEnd places, congrArg Places.hostEnd places,
      found.text.schema.schema_lt, by omega, found.start_le⟩

/-- The schema, the host and the port lie between the method and the end of the line. -/
theorem LayoutDone.places_inside {seen : List UInt8} {r : HttpRequest} (layout : LayoutDone seen r)
    {last : Nat} (methodEnd : r.methodEnd = some last) :
    ∀ p, some p ∈ [r.schemaStart, r.schemaEnd, r.hostStart, r.hostEnd, r.portEnd] →
      last < p ∧ p < seen.length := by
  rcases layout.host with ⟨h₁, h₂, h₃, h₄, h₅⟩ |
    ⟨last', schema, stop, host, finish, found, less⟩
  · rw [h₁, h₂, h₃, h₄, h₅]
    simp
  · obtain ⟨port, value, within⟩ := found.places
    have order := found.start_le
    have host_le := found.host_le
    have after := found.text.schema.spaces.last_lt
    have schema_lt := found.text.schema.schema_lt
    obtain rfl := Option.some.inj ((congrArg Places.methodEnd value).symm.trans methodEnd)
    rw [show r.schemaStart = _ from congrArg Places.schemaStart value,
      show r.schemaEnd = _ from congrArg Places.schemaEnd value,
      show r.hostStart = _ from congrArg Places.hostStart value,
      show r.hostEnd = _ from congrArg Places.hostEnd value,
      show r.portEnd = _ from congrArg Places.portEnd value]
    intro p member
    simp only [List.mem_cons, Option.some.injEq, List.not_mem_nil, or_false] at member
    rcases member with rfl | rfl | rfl | rfl | member
    · omega
    · omega
    · omega
    · omega
    · obtain ⟨after_host, before⟩ := within p member.symm
      omega

/-- The slash of the schema that stands for an absent path. -/
theorem WithoutPath.slash {seen : List UInt8} {r : HttpRequest} (absent : WithoutPath seen r)
    {target targetStop : Nat} (uriStart : r.uriStart = some target)
    (uriEnd : r.uriEnd = some targetStop) :
    ∃ schemaStop, r.schemaEnd = some schemaStop ∧ target = schemaStop + 1 ∧
      targetStop = schemaStop + 2 ∧ targetStop ≤ seen.length ∧
      slice seen target targetStop = [chr '/'] := by
  obtain ⟨last, schema, stop, host, finish, found, less, -, here, there⟩ := absent
  obtain ⟨port, places, -⟩ := found.places
  obtain rfl := Option.some.inj (uriStart.symm.trans here)
  obtain rfl := Option.some.inj (uriEnd.symm.trans there)
  have order := found.start_le
  have host_le := found.host_le
  refine ⟨stop, congrArg Places.schemaEnd places, rfl, rfl, by omega, ?_⟩
  have middle : slice seen (stop + 1) (stop + 2) =
      ((slice seen stop (stop + 3)).take 2).drop 1 := by
    simp only [slice]
    conv_rhs => rw [List.take_drop, List.drop_drop, List.take_take, min_eq_left (by omega)]
  rw [middle, found.text.marks]
  rfl

/-- Every pointer lies among the bytes of the line. -/
private theorem pointers_inside {base : Nat} {seen front : List UInt8} {r : HttpRequest}
    {start last target targetStop : Nat} (method : MethodRead base seen r.methodMarks start last)
    (layout : LayoutDone seen r) (line : OpenLine base front r.endMarks)
    (requestEnd : r.requestEnd = some front.length) (shorter : front.length < seen.length)
    (uriStart : r.uriStart = some target) (uriEnd : r.uriEnd = some targetStop)
    (last_lt : last < target) (target_le : target ≤ targetStop)
    (ext : ∀ e, r.uriExt = some e → target < e ∧ e ≤ targetStop)
    (args : ∀ a, r.argsStart = some a → target < a - 1 ∧ a ≤ targetStop) :
    ∀ p, some p ∈ r.pointers → base ≤ p ∧ p < seen.length := by
  have start_le := method.start_le
  have base_le := method.base_le
  have inside : targetStop ≤ front.length := line.within.uriEnd _ uriEnd
  have places : ∀ p, some p ∈ [r.schemaStart, r.schemaEnd, r.hostStart, r.hostEnd, r.portEnd] →
      base ≤ p ∧ p < seen.length := by
    intro p member
    obtain ⟨after, before⟩ := layout.places_inside method.methodEnd p member
    exact ⟨by omega, before⟩
  intro p member
  rw [HttpRequest.pointers] at member
  simp only [List.mem_cons, List.not_mem_nil, or_false] at member places
  have requestStart : r.requestStart = some start := method.requestStart
  have methodEnd : r.methodEnd = some last := method.methodEnd
  rcases member with here | here | here | here | here | here | here | here | here | here | here |
    here | here
  · rw [requestStart] at here
    obtain rfl := Option.some.inj here
    omega
  · rw [requestEnd] at here
    obtain rfl := Option.some.inj here
    omega
  · rw [methodEnd] at here
    obtain rfl := Option.some.inj here
    omega
  · exact places p (Or.inl here)
  · exact places p (Or.inr (Or.inl here))
  · exact places p (Or.inr (Or.inr (Or.inl here)))
  · exact places p (Or.inr (Or.inr (Or.inr (Or.inl here))))
  · exact places p (Or.inr (Or.inr (Or.inr (Or.inr here))))
  · rw [uriStart] at here
    obtain rfl := Option.some.inj here
    omega
  · rw [uriEnd] at here
    obtain rfl := Option.some.inj here
    omega
  · obtain ⟨after, before⟩ := ext p here.symm
    omega
  · obtain ⟨after, before⟩ := args p here.symm
    omega
  · rcases line.within.protocol with null | ⟨q, data, after, before⟩
    · rw [show r.httpProtocol = .nullString from null] at here
      cases here
    · rw [show r.httpProtocol.data = .header q from data] at here
      obtain rfl : p = q := Option.some.inj here
      omega

/-- The pointers of a line which one call accepts. -/
theorem recordedLine_of_osOk {b b' : OsBuf} (wf : b.WellFormed) {r : HttpRequest}
    (accepted : httpParseRequestLine .fresh b = (.osOk, r, b')) :
    ∃ start last target targetStop stop,
      RecordedLine b.pos b' r start last target targetStop stop := by
  obtain ⟨wf', -, -⟩ := buffer_of_osOk wf accepted
  obtain ⟨start, last, method⟩ := methodRead_of_osOk wf accepted
  obtain ⟨front, line, requestEnd, text⟩ := lineEnded_of_osOk wf accepted
  obtain ⟨target, targetStop, uriStart, uriEnd, target_le, before, -, split⟩ :=
    split_of_osOk wf accepted
  have layout := layout_of_osOk wf accepted
  have length : (b'.received.take b'.pos).length = b'.pos := by
    rw [List.length_take, wf'.received_length, min_eq_left wf'.pos_le]
  have shorter : front.length < b'.pos := by
    rw [← length]
    rcases text with text | text <;> simp [text]
  have target_length : (slice b'.received target targetStop).length = targetStop - target := by
    refine length_slice ?_
    rw [wf'.received_length]
    exact before.trans wf'.pos_le
  obtain ⟨-, ext, args⟩ := split.bounds
  have ext' : ∀ e, r.uriExt = some e → target < e ∧ e ≤ targetStop := by
    intro e here
    obtain ⟨after, inside⟩ := ext e here
    omega
  have args' : ∀ a, r.argsStart = some a → target < a - 1 ∧ a ≤ targetStop := by
    intro a here
    obtain ⟨after, inside, -⟩ := args a here
    omega
  have last_lt := layout.methodEnd_lt method.methodEnd uriStart
  have space_lt := method.space_lt
  rw [length] at space_lt
  have front_eq : (b'.received.take b'.pos).take front.length = front := by
    rcases text with text | text <;> rw [text, List.take_left]
  have in_front : ∀ i j, j ≤ front.length → slice b'.received i j = slice front i j := by
    intro i j inside
    rw [← front_eq, slice_take inside, slice_take (by omega)]
  obtain ⟨start', here, start_le, unbroken⟩ := line.unbroken
  obtain rfl := Option.some.inj (here.symm.trans method.requestStart)
  refine ⟨start', last, target, targetStop, front.length, method.requestStart, method.methodEnd,
    uriStart, uriEnd, requestEnd, method.start_le, last_lt, target_le,
    line.within.uriEnd _ uriEnd, ?_, ?_, ?_, ext', ?_, line.within.protocol, ?_, ?_, ?_, ⟨?_, ?_⟩,
    ?_⟩
  · intro p member
    have inside := pointers_inside method layout line requestEnd (by rwa [length]) uriStart uriEnd
      last_lt target_le ext' args' p member
    rwa [length] at inside
  · intro absolute
    have line_eq : slice b'.received b.pos b'.pos = (b'.received.take b'.pos).drop b.pos := rfl
    rw [line_eq] at absolute
    obtain ⟨stop, schemaEnd, first, second, inside, slash⟩ :=
      (withoutPath_of_absolute method layout absolute).slash uriStart uriEnd
    rw [length] at inside
    rw [slice_take inside] at slash
    exact ⟨stop, schemaEnd, first, second, slash⟩
  · exact fun host here => layout.host_order here
  · intro a here
    obtain ⟨after, inside⟩ := args' a here
    exact ⟨by omega, inside, (args a here).2.2⟩
  · have rest : slice b'.received front.length b'.pos =
        (b'.received.take b'.pos).drop front.length := rfl
    rw [rest]
    exact text.imp (fun text => by rw [text, List.drop_left]) fun text => by
      rw [text, List.drop_left]
  · rw [in_front _ _ le_rfl]
    exact unbroken
  · rw [← slice_take (by omega : start' ≤ b'.pos)]
    exact method.blank
  · rw [← slice_take (by omega : last + 1 ≤ b'.pos)]
    exact method.token
  · rw [← slice_take (by omega : last + 2 ≤ b'.pos)]
    exact method.space
  · rw [← slice_take (by omega : last + 1 ≤ b'.pos)]
    exact method.method

/-! ## The computed strings -/

section Strings

variable {base start last target targetStop stop : Nat} {b : OsBuf} {r : HttpRequest}
  (line : RecordedLine base b r start last target targetStop stop)
include line

/-- The offsets of an accepted line, in order. -/
theorem RecordedLine.chain : base ≤ start ∧ stop < b.pos := by
  have first := line.pointers start (by simp [HttpRequest.pointers, line.requestStart])
  have second := line.pointers stop (by simp [HttpRequest.pointers, line.requestEnd])
  exact ⟨first.1, second.2⟩

theorem RecordedLine.uri_inside : (processedRequest r b).uri.Inside base b.pos := by
  obtain ⟨base_le, stop_lt⟩ := line.chain
  have := line.start_le
  have := line.last_lt
  have := line.target_le
  have := line.targetStop_le
  cases given : r.argsStart with
  | none =>
      rw [processedRequest, (httpProcessRequestUri_of_no_args (r := recordRequestLine r b)
        line.uriStart line.uriEnd given).1]
      split
      · exact OsString.inside_fresh (by omega) (by omega)
      · exact OsString.inside_header (by omega) (by omega) (by omega)
  | some a =>
      obtain ⟨after, before, -⟩ := line.args a given
      rw [processedRequest, (httpProcessRequestUri_of_args (r := recordRequestLine r b)
        line.uriStart line.uriEnd given).1]
      split
      · exact OsString.inside_fresh (by omega) (by omega)
      · exact OsString.inside_header (by omega) (by omega) (by omega)

theorem RecordedLine.args_inside (null : r.args = .nullString) :
    (processedRequest r b).args.Inside base b.pos := by
  obtain ⟨base_le, stop_lt⟩ := line.chain
  have := line.start_le
  have := line.last_lt
  have := line.target_le
  have := line.targetStop_le
  cases given : r.argsStart with
  | none =>
      rw [processedRequest, (httpProcessRequestUri_of_no_args (r := recordRequestLine r b)
        line.uriStart line.uriEnd given).2]
      exact null ▸ OsString.inside_null _ _
  | some a =>
      obtain ⟨after, before, -⟩ := line.args a given
      rw [processedRequest, (httpProcessRequestUri_of_args (r := recordRequestLine r b)
        line.uriStart line.uriEnd given).2]
      split
      · exact OsString.inside_header (by omega) (by omega) (by omega)
      · exact null ▸ OsString.inside_null _ _

theorem RecordedLine.exten_inside (null : r.exten = .nullString) :
    (processedRequest r b).exten.Inside base b.pos := by
  obtain ⟨base_le, stop_lt⟩ := line.chain
  have := line.start_le
  have := line.last_lt
  have := line.targetStop_le
  cases found : r.uriExt with
  | none =>
      have value : (processedRequest r b).exten = r.exten := by
        simp [processedRequest, httpProcessRequestUri, recordRequestLine, found]
      rw [value, null]
      exact OsString.inside_null _ _
  | some e =>
      obtain ⟨after, before⟩ := line.ext e found
      cases given : r.argsStart with
      | none =>
          have value : (processedRequest r b).exten = ⟨.header e, (targetStop : Int) - e⟩ := by
            simp [processedRequest, httpProcessRequestUri, recordRequestLine, found, given, ptrDiff,
              line.uriEnd]
          rw [value]
          exact OsString.inside_header (by omega) (by omega) (by omega)
      | some a =>
          obtain ⟨-, inside, order⟩ := line.args a given
          have e_lt := order e found
          have value : (processedRequest r b).exten = ⟨.header e, (a - 1 : Nat) - (e : Int)⟩ := by
            simp [processedRequest, httpProcessRequestUri, recordRequestLine, found, given, ptrDiff]
          rw [value]
          exact OsString.inside_header (by omega) (by omega) (by omega)

/-- Every string computed from the pointers of an accepted line stays inside the line. -/
theorem RecordedLine.strings_inside (args : r.args = .nullString) (exten : r.exten = .nullString) :
    ∀ s ∈ (processedRequest r b).strings, s.Inside base b.pos := by
  obtain ⟨base_le, stop_lt⟩ := line.chain
  have := line.start_le
  have := line.last_lt
  have := line.target_le
  have := line.targetStop_le
  have requestLine : (processedRequest r b).requestLine =
      ⟨.header start, (stop : Int) - start⟩ := by
    simp [processedRequest, httpProcessRequestUri, recordRequestLine, dataPtr, ptrDiff,
      line.requestStart, line.requestEnd]
  have methodName : (processedRequest r b).methodName =
      ⟨.header start, (last : Int) - start + 1⟩ := by
    simp [processedRequest, httpProcessRequestUri, recordRequestLine, dataPtr, ptrDiff,
      line.requestStart, line.methodEnd]
  have unparsedUri : (processedRequest r b).unparsedUri =
      ⟨.header target, (targetStop : Int) - target⟩ := by
    simp [processedRequest, httpProcessRequestUri, recordRequestLine, dataPtr, ptrDiff,
      line.uriStart, line.uriEnd]
  have httpProtocol : (processedRequest r b).httpProtocol.Inside base b.pos := by
    rcases line.protocol with null | ⟨p, data, after, before⟩
    · have value : (processedRequest r b).httpProtocol = .nullString := by
        simp [processedRequest, httpProcessRequestUri, recordRequestLine, null,
          OsString.nullString]
      rw [value]
      exact OsString.inside_null _ _
    · have value : (processedRequest r b).httpProtocol = ⟨.header p, (stop : Int) - p⟩ := by
        simp [processedRequest, httpProcessRequestUri, recordRequestLine, data, ptrDiff,
          line.requestEnd]
      rw [value]
      exact OsString.inside_header after (by omega) (by omega)
  intro s member
  rw [HttpRequest.strings] at member
  simp only [List.mem_cons, List.not_mem_nil, or_false] at member
  rcases member with rfl | rfl | rfl | rfl | rfl | rfl | rfl
  · rw [requestLine]
    exact OsString.inside_header base_le (by omega) (by omega)
  · rw [methodName]
    exact OsString.inside_header base_le (by omega) (by omega)
  · exact httpProtocol
  · exact line.uri_inside
  · exact line.exten_inside exten
  · rw [unparsedUri]
    exact OsString.inside_header (by omega) (by omega) (by omega)
  · exact line.args_inside args

/-- The host of an accepted line. -/
theorem RecordedLine.host_inside {host : Nat} (here : r.hostStart = some host) :
    r.host.Inside base b.pos := by
  obtain ⟨schema, schemaStop, hostStop, -, -, there, -, -, order⟩ := line.host host here
  have first := line.pointers host (by simp [HttpRequest.pointers, here])
  have second := line.pointers hostStop (by simp [HttpRequest.pointers, there])
  have value : r.host = ⟨.header host, (hostStop : Int) - host⟩ := by
    simp [HttpRequest.host, dataPtr, ptrDiff, here, there]
  rw [value]
  exact OsString.inside_header first.1 (by omega) (by omega)

end Strings

/-- Whatever the calls in which a line arrives, the pointers it leaves in the request are in order
and lie among its bytes, and every string computed from them has a length which is not negative
and stays inside the line. -/
theorem recorded_slices_wellFormed (b b' : OsBuf) (chunks : List (List UInt8)) (r : HttpRequest)
    (wf : b.WellFormed) (room : chunks.flatten.length ≤ b.end - b.last)
    (accepted : resumeRequestLine .fresh b chunks = (.osOk, r, b')) :
    ∃ start last target targetStop stop,
      RecordedLine b.pos b' r start last target targetStop stop ∧ b'.WellFormed ∧
        0 ≤ (processedRequest r b').requestLength ∧
        (∀ s ∈ (processedRequest r b').strings, s.Inside b.pos b'.pos) ∧
        (r.hostStart ≠ none → r.host.Inside b.pos b'.pos) := by
  obtain ⟨more, fits, whole⟩ := resumeRequestLine_osOk wf room accepted
  obtain ⟨start, last, target, targetStop, stop, line⟩ :=
    recordedLine_of_osOk (wf.append fits) whole
  obtain ⟨wf', -, -⟩ := buffer_of_osOk (wf.append fits) whole
  obtain ⟨args, exten⟩ := null_strings_of_osOk (wf.append fits) whole
  refine ⟨start, last, target, targetStop, stop, line, wf', ?_, line.strings_inside args exten,
    fun recorded => ?_⟩
  · obtain ⟨-, stop_lt⟩ := line.chain
    have first := line.pointers start (by simp [HttpRequest.pointers, line.requestStart])
    have value : (processedRequest r b').requestLength = (b'.pos : Int) - start := by
      simp [processedRequest, httpProcessRequestUri, recordRequestLine, ptrDiff, line.requestStart]
    rw [value]
    omega
  · obtain ⟨host, here⟩ := Option.ne_none_iff_exists'.mp recorded
    exact line.host_inside here

theorem recorded_slices_wellFormed_queryLine :
    0 ≤ (processedRequest queryRequest.1 queryRequest.2).requestLength ∧
      ∀ s ∈ (processedRequest queryRequest.1 queryRequest.2).strings,
        s.Inside 0 queryRequest.2.pos := by
  obtain ⟨start, last, target, targetStop, stop, -, -, length, inside, -⟩ :=
    recorded_slices_wellFormed (.holding queryLine) _ [] _ (OsBuf.holding_wellFormed queryLine)
      (by simp) queryLine_accepted
  exact ⟨length, inside⟩

end Http
end OstrichServer
