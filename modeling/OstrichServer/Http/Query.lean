import OstrichServer.Http.TargetScan

/-!
# The query of a request

`http_process_request_uri` splits the target of an accepted line at its first '?' exactly when the
URI states were still watching the path and no '#' follows.
-/

namespace OstrichServer
namespace Http

/-! ## What a `string` holds -/

/-- The bytes a `string` holds; those of a fresh block are whatever the heap held there. -/
def contents (heap : Nat → UInt8) (b : OsBuf) (s : OsString) : List UInt8 :=
  match s.data with
  | .null => []
  | .header p => slice b.mem p (p + s.len.toNat)
  | .fresh _ => (List.range s.len.toNat).map heap

/-- A `string` has the length and the bytes of `bytes`, whatever the heap held before. -/
def OsString.Holds (s : OsString) (b : OsBuf) (bytes : List UInt8) : Prop :=
  s.len = bytes.length ∧ ∀ heap, contents heap b s = bytes

theorem OsBuf.slice_received (b : OsBuf) {start stop : Nat} (inside : stop ≤ b.last) :
    slice b.mem start stop = slice b.received start stop :=
  (slice_take inside).symm

/-- The bytes received, up to the end of a slice. -/
theorem OsBuf.le_received_length {b : OsBuf} {stop : Nat} (size : b.last ≤ b.mem.length)
    (inside : stop ≤ b.last) : stop ≤ b.received.length := by
  rwa [OsBuf.received, List.length_take, min_eq_left size]

theorem OsString.holds_header {b : OsBuf} {start stop : Nat} (size : b.last ≤ b.mem.length)
    (order : start ≤ stop) (inside : stop ≤ b.last) :
    (⟨.header start, (stop : Int) - start⟩ : OsString).Holds b (slice b.received start stop) := by
  have length : ((stop : Int) - start).toNat = stop - start := by omega
  refine ⟨?_, fun heap => ?_⟩
  · change (stop : Int) - start = _
    rw [length_slice (OsBuf.le_received_length size inside)]
    omega
  · rw [contents]
    simp only [length]
    rw [Nat.add_sub_cancel' order, b.slice_received inside]

theorem OsString.holds_null (b : OsBuf) : OsString.nullString.Holds b [] :=
  ⟨rfl, fun _ => rfl⟩

/-- The bytes of a fresh block depend on what the heap held before. -/
theorem contents_fresh_ne (b : OsBuf) {size len : Int} (more : 0 < len) :
    contents (fun _ => 0) b ⟨.fresh size, len⟩ ≠ contents (fun _ => 1) b ⟨.fresh size, len⟩ := by
  obtain ⟨count, same⟩ : ∃ count, len.toNat = count + 1 :=
    Nat.exists_eq_add_one.mpr (by omega)
  simp only [contents, same, List.range_succ_eq_map, List.map_cons]
  intro equal
  exact absurd (List.head_eq_of_cons_eq equal) (by decide)

/-! ## The strings the parser leaves alone -/

/-- The parser never writes `args` and `exten`. -/
theorem null_strings_of_osOk {b b' : OsBuf} (wf : b.WellFormed) {r : HttpRequest}
    (accepted : httpParseRequestLine .fresh b = (.osOk, r, b')) :
    r.args = .nullString ∧ r.exten = .nullString := by
  have step : ∀ (seen : List UInt8) (ch : UInt8) (state : LineState) (r : HttpRequest),
      seen <+: b.received → r.args = .nullString ∧ r.exten = .nullString →
        Keeps (fun _ _ r => r.args = .nullString ∧ r.exten = .nullString)
          (fun _ r => r.args = .nullString ∧ r.exten = .nullString) seen ch
          (lineStep b seen.length ch state r) := by
    intro seen ch state r _ holds
    cases state <;> simp only [lineStep, lineHost, lineHostEnd] <;>
      (repeat' refine iteInduction (fun _ => ?_) (fun _ => ?_)) <;> first | exact holds | trivial
  obtain ⟨p, r', -, -, -, rfl, strings⟩ := done_of_osOk wf accepted _ _ ⟨rfl, rfl⟩ step
  exact strings

/-! ## The split -/

/-- The request has the arguments and the path of the target `path?args`: `args` exactly, the
length of the path, and path bytes which were written. -/
structure QuerySplit (r : HttpRequest) (b : OsBuf) (path args : List UInt8) : Prop where
  args : r.args.Holds b args
  length : r.uri.len = path.length
  written : ∃ bytes : List UInt8, bytes.length ≤ path.length ∧
    ∀ heap, contents heap b r.uri = bytes

/-- A fresh block for the path is never written. -/
theorem QuerySplit.not_fresh {r : HttpRequest} {b : OsBuf} {path args : List UInt8}
    (split : QuerySplit r b path args) {size : Int} (more : 0 < r.uri.len) :
    r.uri.data ≠ .fresh size := by
  intro fresh
  obtain ⟨bytes, -, same⟩ := split.written
  have value : r.uri = ⟨.fresh size, r.uri.len⟩ := by rw [← fresh]
  rw [value] at same
  exact contents_fresh_ne b more ((same _).trans (same _).symm)

section Split

variable {r : HttpRequest} {b : OsBuf} {start stop : Nat}

/-- The fields of the request after `http_process_request_uri` when the '?' was seen. -/
theorem httpProcessRequestUri_of_args {a : Nat} (here : r.uriStart = some start)
    (there : r.uriEnd = some stop) (given : r.argsStart = some a) :
    (httpProcessRequestUri r).uri =
        ⟨if r.complexUri ∨ r.quotedUri then .fresh ((a - 1 : Nat) - start + 1) else .header start,
          (a - 1 : Nat) - start⟩ ∧
      (httpProcessRequestUri r).args =
        if a < stop then ⟨.header a, (stop : Int) - a⟩ else r.args := by
  simp [httpProcessRequestUri, ptrDiff, dataPtr, here, there, given]

/-- The fields of the request after `http_process_request_uri` when no '?' was seen. -/
theorem httpProcessRequestUri_of_no_args (here : r.uriStart = some start)
    (there : r.uriEnd = some stop) (given : r.argsStart = none) :
    (httpProcessRequestUri r).uri =
        ⟨if r.complexUri ∨ r.quotedUri then .fresh ((stop : Int) - start + 1) else .header start,
          (stop : Int) - start⟩ ∧
      (httpProcessRequestUri r).args = r.args := by
  simp [httpProcessRequestUri, ptrDiff, dataPtr, here, there, given]

variable (size : b.last ≤ b.mem.length) (order : start ≤ stop) (inside : stop ≤ b.last)
  (here : r.uriStart = some start) (there : r.uriEnd = some stop)
include size order inside here there

/-- The '?' was seen after `path`: the arguments are exact. -/
theorem Queried.args_holds {path args : List UInt8} (null : r.args = .nullString)
    (target : slice b.received start stop = path ++ chr '?' :: args)
    (query : Queried start path args r.uriMarks) :
    (httpProcessRequestUri r).args.Holds b args := by
  have given : r.argsStart = some (start + path.length + 1) := query.given
  rw [List.append_cons] at target
  obtain ⟨total, -, rest⟩ :=
    slice_of_append order (OsBuf.le_received_length size inside) target
  rw [List.length_append, List.length_singleton, ← Nat.add_assoc] at total rest
  rw [(httpProcessRequestUri_of_args here there given).2]
  by_cases more : start + path.length + 1 < stop
  · rw [if_pos more, ← rest]
    exact OsString.holds_header size more.le inside
  · rw [if_neg more, null]
    have empty : args = [] := List.eq_nil_of_length_eq_zero (by omega)
    rw [empty]
    exact OsString.holds_null b

/-- The '?' was seen after `path`: the uri is the path in place unless a '#' follows. -/
theorem Queried.uri_holds {path args : List UInt8}
    (target : slice b.received start stop = path ++ chr '?' :: args)
    (query : Queried start path args r.uriMarks) (hash : chr '#' ∉ args) :
    (httpProcessRequestUri r).uri.Holds b path := by
  have given : r.argsStart = some (start + path.length + 1) := query.given
  obtain ⟨total, front, -⟩ :=
    slice_of_append order (OsBuf.le_received_length size inside) target
  have complex : r.complexUri ≠ true := fun raised => hash (query.complex.mp raised)
  have quoted : r.quotedUri = false := query.quoted
  rw [(httpProcessRequestUri_of_args here there given).1, if_neg (by simp [complex, quoted]),
    Nat.add_sub_cancel]
  have holds := OsString.holds_header (b := b) size (show start ≤ start + path.length by omega)
    (show start + path.length ≤ b.last by omega)
  rwa [front] at holds

omit size order inside here there in
/-- The byte which took the automaton to `sw_uri` lies before the first '?'. -/
theorem Offended.before_question {path args path' rest : List UInt8} {c : UInt8}
    (offended : Offended start path' c r.uriMarks)
    (again : path' ++ c :: rest = path ++ chr '?' :: args) : ∃ back, path = path' ++ c :: back := by
  have mark : c ≠ chr '?' := by
    rintro rfl
    exact absurd offended.offence (by simp [Offence])
  rcases List.append_eq_append_iff.mp again with ⟨front, rfl, same⟩ | ⟨front, rfl, same⟩
  · cases front with
    | nil => exact (mark (List.head_eq_of_cons_eq same)).elim
    | cons c' front =>
        rw [List.cons_append] at same
        rw [List.head_eq_of_cons_eq same]
        exact ⟨front, rfl⟩
  · cases front with
    | nil => exact (mark (List.head_eq_of_cons_eq same).symm).elim
    | cons c' front =>
        rw [List.cons_append] at same
        refine (offended.watched.question ?_).elim
        rw [← List.head_eq_of_cons_eq same]
        simp

/-- The condition under which the split is right, once the '?' was or was not seen. -/
theorem Split.querySplit_iff {path args : List UInt8} (null : r.args = .nullString)
    (target : slice b.received start stop = path ++ chr '?' :: args)
    (question : chr '?' ∉ path) (hash : chr '#' ∉ path)
    (split : Split start (slice b.received start stop) r.uriMarks) :
    (QuerySplit (httpProcessRequestUri r) b path args ↔
        chr '%' ∉ path ∧ ¬ SlashRun path ∧ chr '#' ∉ args) ∧
      (chr '%' ∉ path → ¬ SlashRun path → chr '#' ∉ args →
        (httpProcessRequestUri r).uri.Holds b path) := by
  have more : 0 < (stop : Int) - start := by
    obtain ⟨total, -, -⟩ :=
      slice_of_append order (OsBuf.le_received_length size inside) target
    rw [List.length_cons] at total
    omega
  rcases split with watch | ⟨path', args', again, query⟩ | ⟨path', c, rest, again, offended⟩
  · exact (watch.watched.question (by rw [target]; simp)).elim
  · -- the '?' which the automaton saw is the first one
    obtain ⟨rfl, rfl⟩ : path' = path ∧ args' = args := by
      have first := pathOf_append args question
      rw [← target, again] at first
      have second := pathOf_append args' query.watched.question
      exact ⟨second.1.symm.trans first.1, second.2.symm.trans first.2⟩
    have args_hold := query.args_holds size order inside here there null target
    have uri_holds := query.uri_holds size order inside here there target
    refine ⟨⟨fun right => ⟨query.watched.percent, query.watched.run, fun number => ?_⟩,
      fun condition => ?_⟩, fun _ _ => uri_holds⟩
    · have given : r.argsStart = some (start + path'.length + 1) := query.given
      have value := (httpProcessRequestUri_of_args here there given).1
      have complex : r.complexUri = true := query.complex.mpr number
      rw [if_pos (Or.inl complex)] at value
      refine right.not_fresh ?_ (congrArg OsString.data value)
      rw [right.length]
      exact_mod_cast query.watched.length_pos
    · have holds := uri_holds condition.2.2
      exact ⟨args_hold, holds.1, path', le_rfl, holds.2⟩
  · -- the byte after `path'` took the automaton to `sw_uri` before the '?'
    have apart : ¬ (chr '%' ∉ path ∧ ¬ SlashRun path) := by
      obtain ⟨back, rfl⟩ := offended.before_question (again.symm.trans target)
      rintro ⟨percent, run⟩
      rcases WatchedPath.not_offence back offended.offence with bad | bad | bad
      · exact percent bad
      · exact hash bad
      · exact run bad
    refine ⟨⟨fun right => ?_, fun condition => (apart ⟨condition.1, condition.2.1⟩).elim⟩,
      fun percent run _ => (apart ⟨percent, run⟩).elim⟩
    have given : r.argsStart = none := offended.given
    have value := (httpProcessRequestUri_of_no_args here there given).1
    have flagged : r.complexUri = true ∨ r.quotedUri = true := offended.flagged
    rw [if_pos flagged] at value
    refine (right.not_fresh ?_ (congrArg OsString.data value)).elim
    rw [value]
    exact more

end Split

/-! ## Accepted lines -/

/-- The request after `http_process_request_line` has recorded the line and its target. -/
def processedRequest (r : HttpRequest) (b : OsBuf) : HttpRequest :=
  httpProcessRequestUri (recordRequestLine r b)

/-- The split of the query of a line which one call accepts. -/
theorem querySplit_of_osOk {b b' : OsBuf} (wf : b.WellFormed) {r : HttpRequest}
    (accepted : httpParseRequestLine .fresh b = (.osOk, r, b')) :
    ∃ start stop, r.uriStart = some start ∧ r.uriEnd = some stop ∧
      ∀ path args, slice b'.received start stop = path ++ chr '?' :: args → chr '?' ∉ path →
        chr '#' ∉ path →
        (QuerySplit (processedRequest r b') b' path args ↔
            chr '%' ∉ path ∧ ¬ SlashRun path ∧ chr '#' ∉ args) ∧
          (chr '%' ∉ path → ¬ SlashRun path → chr '#' ∉ args →
            (processedRequest r b').uri.Holds b' path) := by
  obtain ⟨start, stop, here, there, order, -, inside, split⟩ := split_of_osOk wf accepted
  obtain ⟨null, -⟩ := null_strings_of_osOk wf accepted
  obtain ⟨wf', -, -⟩ := buffer_of_osOk wf accepted
  rw [wf'.received_length] at inside
  refine ⟨start, stop, here, there, fun path args target question hash => ?_⟩
  exact split.querySplit_iff (r := recordRequestLine r b') (wf'.size ▸ wf'.last_le) order inside
    here there null target question hash

/-- For an accepted line whose target has a '?' before any '#', the query is split off exactly
when the path has no escape and no slash followed by '+' and a '/' or '.', and no '#' follows the
'?'; then the uri is the path. -/
theorem query_split_iff (b b' : OsBuf) (chunks : List (List UInt8)) (r : HttpRequest)
    (wf : b.WellFormed) (room : chunks.flatten.length ≤ b.end - b.last)
    (accepted : resumeRequestLine .fresh b chunks = (.osOk, r, b')) :
    ∃ start stop, r.uriStart = some start ∧ r.uriEnd = some stop ∧
      ∀ path args, slice b'.received start stop = path ++ chr '?' :: args → chr '?' ∉ path →
        chr '#' ∉ path →
        (QuerySplit (processedRequest r b') b' path args ↔
            chr '%' ∉ path ∧ ¬ SlashRun path ∧ chr '#' ∉ args) ∧
          (chr '%' ∉ path → ¬ SlashRun path → chr '#' ∉ args →
            (processedRequest r b').uri.Holds b' path) := by
  obtain ⟨more, fits, whole⟩ := resumeRequestLine_osOk wf room accepted
  exact querySplit_of_osOk (wf.append fits) whole

/-- `GET /a?x HTTP/1.0` and a line end. -/
def queryLine : List UInt8 :=
  [chr 'G', chr 'E', chr 'T', sp, chr '/', chr 'a', chr '?', chr 'x', sp, chr 'H', chr 'T',
    chr 'T', chr 'P', chr '/', chr '1', chr '.', chr '0', cr, lf]

/-- The request and the buffer after the parser read `queryLine`. -/
def queryRequest : HttpRequest × OsBuf := (httpParseRequestLine .fresh (.holding queryLine)).2

theorem queryLine_accepted :
    resumeRequestLine .fresh (.holding queryLine) [] = (.osOk, queryRequest.1, queryRequest.2) := by
  refine Prod.ext ?_ rfl
  change (httpParseRequestLine .fresh (.holding queryLine)).1 = .osOk
  rw [httpParseRequestLine_eq (OsBuf.holding_wellFormed queryLine)]
  decide +kernel

theorem query_split_iff_queryLine :
    QuerySplit (processedRequest queryRequest.1 queryRequest.2) queryRequest.2
      [chr '/', chr 'a'] [chr 'x'] := by
  have wf := OsBuf.holding_wellFormed queryLine
  have call := httpParseRequestLine_eq wf .fresh
  obtain ⟨start, stop, here, there, split⟩ := query_split_iff (.holding queryLine) _ [] _ wf
    (by simp) queryLine_accepted
  obtain rfl : start = 4 := by
    have start_eq : queryRequest.1.uriStart = some 4 := by
      rw [queryRequest, call]
      decide +kernel
    exact Option.some.inj (here.symm.trans start_eq)
  obtain rfl : stop = 8 := by
    have stop_eq : queryRequest.1.uriEnd = some 8 := by
      rw [queryRequest, call]
      decide +kernel
    exact Option.some.inj (there.symm.trans stop_eq)
  have target : slice queryRequest.2.received 4 8 =
      [chr '/', chr 'a'] ++ chr '?' :: [chr 'x'] := by
    rw [queryRequest, call]
    decide +kernel
  refine ((split _ _ target (by decide) (by decide)).1).mpr ⟨by decide, ?_, by decide⟩
  rw [show [chr '/', chr 'a'] = [chr '/'] ++ [chr 'a'] from rfl, slashRun_concat]
  rintro (run | ⟨-, slash | dot⟩)
  · exact WatchedPath.root.run run
  · exact absurd slash (by decide)
  · exact absurd dot (by decide)

/-- `GET /%41?x HTTP/1.0` and a line end. -/
def escapedLine : List UInt8 :=
  [chr 'G', chr 'E', chr 'T', sp, chr '/', chr '%', chr '4', chr '1', chr '?', chr 'x', sp,
    chr 'H', chr 'T', chr 'T', chr 'P', chr '/', chr '1', chr '.', chr '0', cr, lf]

theorem query_not_split : ¬ ∀ (b b' : OsBuf) (chunks : List (List UInt8)) (r : HttpRequest),
    b.WellFormed → chunks.flatten.length ≤ b.end - b.last →
    resumeRequestLine .fresh b chunks = (.osOk, r, b') →
    ∃ start stop, r.uriStart = some start ∧ r.uriEnd = some stop ∧
      ∀ path args, slice b'.received start stop = path ++ chr '?' :: args → chr '?' ∉ path →
        chr '#' ∉ path → QuerySplit (processedRequest r b') b' path args := by
  intro always
  have wf := OsBuf.holding_wellFormed escapedLine
  have call := httpParseRequestLine_eq wf .fresh
  have code : (httpParseRequestLine .fresh (.holding escapedLine)).1 = .osOk := by
    rw [call]
    decide +kernel
  have accepted : httpParseRequestLine .fresh (.holding escapedLine) =
      (.osOk, (httpParseRequestLine .fresh (.holding escapedLine)).2.1,
        (httpParseRequestLine .fresh (.holding escapedLine)).2.2) := Prod.ext code rfl
  obtain ⟨start, stop, here, there, all⟩ := always _ _ [] _ wf (by simp) accepted
  obtain ⟨start', stop', here', there', split⟩ := querySplit_of_osOk wf accepted
  obtain rfl := Option.some.inj (here.symm.trans here')
  obtain rfl := Option.some.inj (there.symm.trans there')
  obtain rfl : start = 4 := by
    have start_eq : (httpParseRequestLine .fresh (.holding escapedLine)).2.1.uriStart = some 4 := by
      rw [call]
      decide +kernel
    exact Option.some.inj (here.symm.trans start_eq)
  obtain rfl : stop = 10 := by
    have stop_eq : (httpParseRequestLine .fresh (.holding escapedLine)).2.1.uriEnd = some 10 := by
      rw [call]
      decide +kernel
    exact Option.some.inj (there.symm.trans stop_eq)
  have target : slice (httpParseRequestLine .fresh (.holding escapedLine)).2.2.received 4 10 =
      [chr '/', chr '%', chr '4', chr '1'] ++ chr '?' :: [chr 'x'] := by
    rw [call]
    decide +kernel
  have condition := ((split _ _ target (by decide) (by decide)).1).mp
    (all _ _ target (by decide) (by decide))
  exact condition.1 (by decide)

end Http
end OstrichServer
