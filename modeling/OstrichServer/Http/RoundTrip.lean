import OstrichServer.Http.Components
import OstrichServer.Http.Version

/-!
# Lines that are written and read

A client writes a request line from a method, a path, arguments and a version.  The handler of the
request line gets these parts back, however the bytes arrive, and leaves the bytes that follow the
line to be read.
-/

namespace OstrichServer
namespace Http

open StoppingReader

/-- The parts of a line in origin form whose path is used in place. -/
structure PlainLine where
  method : List UInt8
  path : List UInt8
  query : Option (List UInt8)
  major : List UInt8
  minor : List UInt8
  method_ne : method ≠ []
  method_bytes : ∀ c ∈ method, isMethodByte c = true
  watched : WatchedPath path
  path_bytes : ∀ c ∈ path, c ∉ [0, lf, cr, sp]
  query_bytes : ∀ args ∈ query, ∀ c ∈ args, c ∉ [0, lf, cr, sp, chr '#']
  major_ne : major ≠ []
  major_digits : ∀ c ∈ major, isDigit c = true
  major_leading : major.head? ≠ some (chr '0')
  minor_ne : minor ≠ []
  minor_digits : ∀ c ∈ minor, isDigit c = true
  major_small : decimal major < 65536
  minor_small : decimal minor < 65536

namespace PlainLine

/-- The path and the arguments. -/
def target (line : PlainLine) : List UInt8 :=
  line.path ++ (line.query.map (chr '?' :: ·)).getD []

/-- `HTTP/major.minor` -/
def version (line : PlainLine) : List UInt8 :=
  versionName ++ (line.major ++ chr '.' :: line.minor)

/-- The line without its end. -/
def request (line : PlainLine) : List UInt8 :=
  line.method ++ sp :: (line.target ++ sp :: line.version)

/-- The line. -/
def text (line : PlainLine) : List UInt8 := line.request ++ [cr, lf]

end PlainLine

/-! ## Runs of the parser -/

section Run

variable {b : OsBuf} {p : Nat} {state next : LineState} {r r' : HttpRequest} {c : UInt8}

theorem run_next (step : lineStep b p c state r = .next next r') (word : List UInt8) :
    run (lineMove b) ⟨p, state, r⟩ (c :: word) = run (lineMove b) ⟨p + 1, next, r'⟩ word := by
  have moved : lineMove b ⟨p, state, r⟩ c = .go ⟨p + 1, next, r'⟩ := by
    simp [lineMove, lineByte, step, LineMove.toMove]
  exact run_cons_go _ _ moved

theorem run_done (step : lineStep b p c state r = .done r') (word : List UInt8) :
    run (lineMove b) ⟨p, state, r⟩ (c :: word) = .stopped (.done p r') word := by
  have moved : lineMove b ⟨p, state, r⟩ c = .stop (.done p r') := by
    simp [lineMove, lineByte, step, LineMove.toMove]
  exact run_cons_stop _ _ moved

/-- Bytes which a state reads without any effect. -/
theorem run_idle {bytes : List UInt8}
    (idle : ∀ c ∈ bytes, ∀ p, lineStep b p c state r = .next state r) (word : List UInt8) :
    run (lineMove b) ⟨p, state, r⟩ (bytes ++ word) =
      run (lineMove b) ⟨p + bytes.length, state, r⟩ word := by
  induction bytes generalizing p with
  | nil => rfl
  | cons c bytes induction =>
      rw [List.cons_append, run_next (idle c List.mem_cons_self p),
        induction fun c member => idle c (List.mem_cons_of_mem _ member), List.length_cons,
        Nat.add_right_comm, Nat.add_assoc]

private theorem isMethodByte_ne_break : ∀ c, isMethodByte c = true → c ≠ sp ∧ c ≠ cr ∧ c ≠ lf := by
  decide +kernel

/-- The method and the space after it. -/
theorem run_method {method : List UInt8} (nonempty : method ≠ [])
    (bytes : ∀ c ∈ method, isMethodByte c = true) (word : List UInt8) :
    run (lineMove b) ⟨p, .swStart, r⟩ (method ++ sp :: word) =
      run (lineMove b) ⟨p + method.length + 1, .swSpacesBeforeUri,
        ((r.setRequestStart p).setMethodEnd (p + method.length - 1)).setMethod
          (methodCode (fun i => b.byte (p + i)) method.length r.method)⟩ word := by
  obtain ⟨c, rest, rfl⟩ := List.exists_cons_of_ne_nil nonempty
  have letter := bytes c List.mem_cons_self
  obtain ⟨-, not_cr, not_lf⟩ := isMethodByte_ne_break c letter
  have first : lineStep b p c .swStart r = .next .swMethod (r.setRequestStart p) := by
    simp [lineStep, not_cr, not_lf, letter]
  have idle : ∀ c ∈ rest, ∀ p', lineStep b p' c .swMethod (r.setRequestStart p) =
      .next .swMethod (r.setRequestStart p) := by
    intro c member p'
    have letter := bytes c (List.mem_cons_of_mem _ member)
    simp [lineStep, (isMethodByte_ne_break c letter).1, letter]
  rw [List.cons_append, run_next first, run_idle idle]
  have space : lineStep b (p + 1 + rest.length) sp .swMethod (r.setRequestStart p) =
      .next .swSpacesBeforeUri
        (((r.setRequestStart p).setMethodEnd (p + 1 + rest.length - 1)).setMethod
        (methodCode (fun i => b.byte (p + i)) (p + 1 + rest.length - p) r.method)) := rfl
  have count : p + 1 + rest.length - p = (c :: rest).length := by
    rw [List.length_cons]
    omega
  have position : p + 1 + rest.length = p + (c :: rest).length := by
    rw [List.length_cons]
    omega
  rw [run_next space, count, position]

/-- The request while its path is read. -/
def HttpRequest.withPath (r : HttpRequest) (start : Nat) (ext : Option Nat) (plus : Bool) :
    HttpRequest :=
  { r with uriStart := some start, uriExt := ext, plusInUri := plus }

/-- The state that watches a path. -/
inductive Watches (path : List UInt8) : LineState → Prop
  | slash (after : AfterSlash path) : Watches path .swAfterSlashInUri
  | segment (inside : ¬AfterSlash path) : Watches path .swCheckUri

theorem WatchedPath.of_concat {path : List UInt8} {c : UInt8} (watched : WatchedPath (path ++ [c]))
    (nonempty : path ≠ []) : WatchedPath path ∧ c ≠ chr '?' ∧ ¬Offence path c := by
  have front : path <+: path ++ [c] := List.prefix_append _ _
  have none_of : ∀ d, d ∉ path ++ [c] → d ∉ path ∧ c ≠ d := by
    intro d outside
    rw [List.mem_append, List.mem_singleton, not_or] at outside
    exact ⟨outside.1, fun same => outside.2 same.symm⟩
  have run := watched.run
  rw [slashRun_concat, not_or] at run
  refine ⟨⟨?_, (none_of _ watched.percent).1, (none_of _ watched.hash).1,
    (none_of _ watched.question).1, run.1⟩, (none_of _ watched.question).2, ?_⟩
  · exact List.prefix_of_prefix_length_le watched.slash front (List.length_pos_iff.mpr nonempty)
  · rintro (percent | hash | offence)
    · exact (none_of _ watched.percent).2 percent
    · exact (none_of _ watched.hash).2 hash
    · exact run.2 offence

/-- One more byte of a watched path. -/
theorem Watches.step {path : List UInt8} {ext : Option Nat} {plus : Bool} {start : Nat}
    (watches : Watches path state) (plain : c ∉ [0, lf, cr, sp]) (question : c ≠ chr '?')
    (harmless : ¬Offence path c) :
    ∃ state' ext' plus', lineStep b p c state (r.withPath start ext plus) =
      .next state' (r.withPath start ext' plus') ∧ Watches (path ++ [c]) state' := by
  simp only [Offence, not_or] at harmless
  obtain ⟨percent, hash, run⟩ := harmless
  simp only [List.mem_cons, List.not_mem_nil, or_false, not_or] at plain
  obtain ⟨nul, line_feed, carriage, space⟩ := plain
  cases watches with
  | slash after =>
      have not_slash : c ≠ chr '/' := fun same => run ⟨after, Or.inl same⟩
      have not_dot : c ≠ chr '.' := fun same => run ⟨after, Or.inr same⟩
      by_cases plus_sign : c = chr '+'
      · subst plus_sign
        exact ⟨_, _, _, rfl, .slash (afterSlash_concat.mpr (Or.inr ⟨after, rfl⟩))⟩
      · refine ⟨.swCheckUri, ext, plus, ?_, .segment ?_⟩
        · simp only [lineStep, space, carriage, line_feed, not_dot, percent, not_slash, question,
            hash, plus_sign, nul, if_false, ite_self]
        · rw [afterSlash_concat]
          rintro (same | ⟨-, same⟩)
          · exact not_slash same
          · exact plus_sign same
  | segment inside =>
      by_cases slash : c = chr '/'
      · subst slash
        exact ⟨_, _, _, rfl, .slash (afterSlash_concat.mpr (Or.inl rfl))⟩
      · have still : ¬AfterSlash (path ++ [c]) := by
          rw [afterSlash_concat]
          rintro (same | ⟨after, -⟩)
          · exact slash same
          · exact inside after
        by_cases dot : c = chr '.'
        · subst dot
          exact ⟨_, _, _, rfl, .segment still⟩
        · by_cases plus_sign : c = chr '+'
          · subst plus_sign
            exact ⟨_, _, _, rfl, .segment still⟩
          · refine ⟨.swCheckUri, ext, plus, ?_, .segment still⟩
            simp only [lineStep, space, carriage, line_feed, dot, percent, slash, question, hash,
              plus_sign, nul, if_false, ite_self]

/-- A watched path. -/
theorem run_path {path : List UInt8} (watched : WatchedPath path)
    (bytes : ∀ c ∈ path, c ∉ [0, lf, cr, sp]) :
    ∃ state ext plus, run (lineMove b) ⟨p, .swSpacesBeforeUri, r⟩ path =
      .pending ⟨p + path.length, state, r.withPath p ext plus⟩ ∧ Watches path state := by
  induction path using List.reverseRecOn with
  | nil => exact absurd watched.slash (by simp)
  | append_singleton path c induction =>
      by_cases first : path = []
      · subst first
        obtain rfl : chr '/' = c := by simpa using watched.slash
        exact ⟨.swAfterSlashInUri, r.uriExt, r.plusInUri, rfl, .slash ⟨[], 0, rfl⟩⟩
      · obtain ⟨watched', question, harmless⟩ := watched.of_concat first
        obtain ⟨state, ext, plus, reach, watches⟩ := induction watched' fun c member =>
          bytes c (List.mem_append_left _ member)
        obtain ⟨state', ext', plus', step, watches'⟩ :=
          watches.step (bytes c (by simp)) question harmless
        refine ⟨state', ext', plus', ?_, watches'⟩
        rw [run_append_of_pending _ _ reach, run_next step, run_nil, List.length_append,
          List.length_singleton, Nat.add_assoc]

/-- The request after its target. -/
def HttpRequest.withTarget (r : HttpRequest) (start stop : Nat) (ext args : Option Nat)
    (plus : Bool) : HttpRequest :=
  { r with
    uriStart := some start
    uriEnd := some stop
    uriExt := ext
    argsStart := args
    plusInUri := plus }

/-- The states which may find the version of a line. -/
def LineState.afterTarget (state : LineState) : Prop :=
  state = .swCheckUriHttp09 ∨ state = .swHttp09

/-- The path, the arguments and the space after them. -/
theorem run_target (line : PlainLine) (word : List UInt8) :
    ∃ state ext args plus, state.afterTarget ∧
      run (lineMove b) ⟨p, .swSpacesBeforeUri, r⟩ (line.target ++ sp :: word) =
        run (lineMove b) ⟨p + line.target.length + 1, state,
          r.withTarget p (p + line.target.length) ext args plus⟩ word := by
  obtain ⟨state, ext, plus, reach, watches⟩ := run_path (b := b) (p := p) (r := r) line.watched
    line.path_bytes
  rw [PlainLine.target]
  cases query : line.query with
  | none =>
      rw [Option.map_none, Option.getD_none, List.append_nil]
      have space : lineStep b (p + line.path.length) sp state (r.withPath p ext plus) =
          .next .swCheckUriHttp09 ((r.withPath p ext plus).setUriEnd (p + line.path.length)) := by
        cases watches <;> rfl
      refine ⟨.swCheckUriHttp09, ext, r.argsStart, plus, Or.inl rfl, ?_⟩
      rw [run_append_of_pending _ _ reach, run_next space]
      rfl
  | some args =>
      have question : lineStep b (p + line.path.length) (chr '?') state (r.withPath p ext plus) =
          .next .swUri ((r.withPath p ext plus).setArgsStart (p + line.path.length + 1)) := by
        cases watches <;> rfl
      have idle : ∀ c ∈ args, ∀ p' r', lineStep b p' c .swUri r' = .next .swUri r' := by
        intro c member p' r'
        have plain := line.query_bytes args query c member
        simp only [List.mem_cons, List.not_mem_nil, or_false, not_or] at plain
        obtain ⟨nul, line_feed, carriage, space, hash⟩ := plain
        simp only [lineStep, space, carriage, line_feed, hash, nul, if_false, ite_self]
      have length : line.path.length + 1 + args.length = (line.path ++ chr '?' :: args).length := by
        rw [List.length_append, List.length_cons]
        omega
      refine ⟨.swHttp09, ext, some (p + line.path.length + 1), plus, Or.inr rfl, ?_⟩
      rw [Option.map_some, Option.getD_some, ← length, List.append_assoc, List.cons_append,
        run_append_of_pending _ _ reach, run_next question,
        run_idle fun c member p' => idle c member p' _]
      have space : ∀ p' r', lineStep b p' sp .swUri r' = .next .swHttp09 (r'.setUriEnd p') :=
        fun _ _ => rfl
      rw [run_next (space _ _), Nat.add_assoc p, Nat.add_assoc p]
      rfl

/-- Digits that a state adds to a number of the request. -/
theorem run_digits {set : UInt16 → HttpRequest}
    (step : ∀ digit p number, isDigit digit = true →
      lineStep b p digit state (set (.ofNat number)) =
      .next state (set (.ofNat (appendDigit number digit))))
    {digits : List UInt8} (all : ∀ c ∈ digits, isDigit c = true) (number : Nat)
    (word : List UInt8) :
    run (lineMove b) ⟨p, state, set (.ofNat number)⟩ (digits ++ word) =
      run (lineMove b) ⟨p + digits.length, state, set (.ofNat (digits.foldl appendDigit number))⟩
        word := by
  induction digits generalizing p number with
  | nil => rfl
  | cons digit digits induction =>
      rw [List.cons_append, run_next (step digit p number (all digit List.mem_cons_self)),
        induction fun c member => all c (List.mem_cons_of_mem _ member), List.length_cons,
        Nat.add_right_comm, Nat.add_assoc, List.foldl_cons]

/-- The request at the end of its line. -/
def HttpRequest.withVersion (r : HttpRequest) (start stop major minor : Nat) : HttpRequest :=
  { r with
    httpProtocol := ⟨.header start, r.httpProtocol.len⟩
    httpMajor := .ofNat major
    httpMinor := .ofNat minor
    requestEnd := some stop }

private theorem isDigit_ne : ∀ c, isDigit c = true →
    c ≠ chr '.' ∧ c ≠ cr ∧ c ≠ lf ∧ c ≠ sp ∧ ¬c < chr '0' ∧ ¬chr '9' < c ∧
      (c ≠ chr '0' → ¬c < chr '1') := by
  decide +kernel

theorem lineStep_majorDigit (r : HttpRequest) (digit : UInt8) (p number : Nat)
    (is_digit : isDigit digit = true) :
    lineStep b p digit .swMajorDigit (r.setHttpMajor (.ofNat number)) =
      .next .swMajorDigit (r.setHttpMajor (.ofNat (appendDigit number digit))) := by
  rw [← accumulate_digit number is_digit]
  simp only [lineStep, (isDigit_ne digit is_digit).1, is_digit, not_true, if_false]
  rfl

theorem lineStep_minorDigit (r : HttpRequest) (digit : UInt8) (p number : Nat)
    (is_digit : isDigit digit = true) :
    lineStep b p digit .swMinorDigit (r.setHttpMinor (.ofNat number)) =
      .next .swMinorDigit (r.setHttpMinor (.ofNat (appendDigit number digit))) := by
  obtain ⟨-, carriage, line_feed, space, -⟩ := isDigit_ne digit is_digit
  rw [← accumulate_digit number is_digit]
  simp only [lineStep, carriage, line_feed, space, is_digit, not_true, if_false]
  rfl

/-- The version and the end of the line. -/
theorem run_version (line : PlainLine) (rest : List UInt8) (after : state.afterTarget) :
    run (lineMove b) ⟨p, state, r⟩ (line.version ++ [cr, lf] ++ rest) =
      .stopped (.done (p + line.version.length + 1) (r.withVersion p (p + line.version.length)
        (decimal line.major) (decimal line.minor))) rest := by
  obtain ⟨first, digits, major⟩ := List.exists_cons_of_ne_nil line.major_ne
  obtain ⟨first', digits', minor⟩ := List.exists_cons_of_ne_nil line.minor_ne
  have all := line.major_digits
  have all' := line.minor_digits
  rw [major] at all
  rw [minor] at all'
  have is_digit := all first List.mem_cons_self
  have is_digit' := all' first' List.mem_cons_self
  have leading : first ≠ chr '0' := fun zero => line.major_leading (by rw [major, zero]; rfl)
  have start : lineStep b p (chr 'H') state r = .next .swHttpH (r.setHttpProtocolData p) := by
    rcases after with rfl | rfl <;> rfl
  have first_major : ∀ p r, lineStep b p first .swFirstMajorDigit r =
      .next .swMajorDigit (r.setHttpMajor (.ofNat (appendDigit 0 first))) := by
    intro p r
    obtain ⟨-, -, -, -, -, above, below⟩ := isDigit_ne first is_digit
    rw [← first_digit is_digit]
    simp only [lineStep, below leading, above, or_self, if_false]
  have first_minor : ∀ p r, lineStep b p first' .swFirstMinorDigit r =
      .next .swMinorDigit (r.setHttpMinor (.ofNat (appendDigit 0 first'))) := by
    intro p r
    rw [← first_digit is_digit']
    simp only [lineStep, is_digit', not_true, if_false]
  have length : p + line.version.length =
      p + 1 + 1 + 1 + 1 + 1 + 1 + digits.length + 1 + 1 + digits'.length := by
    simp only [PlainLine.version, versionName, major, minor, List.length_append, List.length_cons,
      List.length_nil]
    omega
  have split : line.version ++ [cr, lf] ++ rest = chr 'H' :: chr 'T' :: chr 'T' :: chr 'P' ::
      chr '/' :: first :: (digits ++ chr '.' :: first' :: (digits' ++ cr :: lf :: rest)) := by
    simp [PlainLine.version, versionName, major, minor]
  have letters : ∀ p r, lineStep b p (chr 'T') .swHttpH r = .next .swHttpHT r ∧
      lineStep b p (chr 'T') .swHttpHT r = .next .swHttpHTT r ∧
      lineStep b p (chr 'P') .swHttpHTT r = .next .swHttpHTTP r ∧
      lineStep b p (chr '/') .swHttpHTTP r = .next .swFirstMajorDigit r ∧
      lineStep b p (chr '.') .swMajorDigit r = .next .swFirstMinorDigit r ∧
      lineStep b p cr .swMinorDigit r = .next .swAlmostDone r :=
    fun _ _ => ⟨rfl, rfl, rfl, rfl, rfl, rfl⟩
  have ends : ∀ p r, lineStep b (p + 1) lf .swAlmostDone r = .done (r.setRequestEnd p) :=
    fun _ _ => rfl
  rw [split, run_next start, run_next (letters _ _).1, run_next (letters _ _).2.1,
    run_next (letters _ _).2.2.1, run_next (letters _ _).2.2.2.1, run_next (first_major _ _),
    run_digits (fun digit p number => lineStep_majorDigit _ digit p number)
      (fun c member => all c (List.mem_cons_of_mem _ member)),
    run_next (letters _ _).2.2.2.2.1, run_next (first_minor _ _),
    run_digits (fun digit p number => lineStep_minorDigit _ digit p number)
      (fun c member => all' c (List.mem_cons_of_mem _ member)),
    run_next (letters _ _).2.2.2.2.2, run_done (ends _ _), length, major, minor]
  rfl

end Run

/-! ## The line as a whole -/

namespace PlainLine

/-- Where the target starts in a line that starts at `pos`. -/
def targetAt (line : PlainLine) (pos : Nat) : Nat := pos + line.method.length + 1

/-- Where the version starts. -/
def versionAt (line : PlainLine) (pos : Nat) : Nat := line.targetAt pos + line.target.length + 1

/-- What the parser records of a line at `pos`. -/
def recorded (line : PlainLine) (pos : Nat) (ext args : Option Nat) (plus : Bool) : HttpRequest :=
  let method := (HttpRequest.fresh.setRequestStart pos).setMethodEnd (pos + line.method.length - 1)
  let target := (method.setMethod (tokenCode line.method)).withTarget (line.targetAt pos)
    (line.targetAt pos + line.target.length) ext args plus
  target.withVersion (line.versionAt pos) (line.versionAt pos + line.version.length)
    (decimal line.major) (decimal line.minor)

theorem length_request (line : PlainLine) (pos : Nat) :
    line.versionAt pos + line.version.length = pos + line.request.length := by
  simp only [versionAt, targetAt, request, List.length_append, List.length_cons]
  omega

/-- The major number does not start with a zero. -/
theorem one_le_major (line : PlainLine) : 1 ≤ decimal line.major := by
  obtain ⟨first, digits, major⟩ := List.exists_cons_of_ne_nil line.major_ne
  have is_digit := line.major_digits first (by rw [major]; exact List.mem_cons_self)
  have leading : first ≠ chr '0' := fun zero => line.major_leading (by rw [major, zero]; rfl)
  have above : 49 ≤ first.toNat := not_lt.mp ((isDigit_ne first is_digit).2.2.2.2.2.2 leading)
  rw [major]
  refine le_trans ?_ (le_foldl_appendDigit digits (appendDigit 0 first))
  unfold appendDigit
  omega

theorem length_text (line : PlainLine) : line.text.length = line.request.length + 2 := by
  simp [text]

/-- The version of the request that the parser leaves. -/
theorem httpVersion_recorded (line : PlainLine) (pos p : Nat) (ext args : Option Nat)
    (plus : Bool) :
    (lineDone p (line.recorded pos ext args plus)).httpVersion.toNat =
      1000 * decimal line.major + decimal line.minor := by
  have value := httpVersion_toNat (decimal line.major) (decimal line.minor)
  rw [Nat.mod_eq_of_lt line.major_small, Nat.mod_eq_of_lt line.minor_small] at value
  exact value

end PlainLine

section Whole

variable {b : OsBuf} (wf : b.WellFormed)
include wf

/-- Bytes that are pending, as a slice of the buffer. -/
theorem slice_of_pending (front middle back : List UInt8)
    (pending : b.pending = front ++ (middle ++ back)) :
    slice b.received (b.pos + front.length) (b.pos + front.length + middle.length) = middle := by
  have length : (b.received.take b.pos).length = b.pos := by
    rw [List.length_take, wf.received_length, min_eq_left wf.pos_le]
  have before : (b.received.take b.pos ++ front).length = b.pos + front.length := by
    rw [List.length_append, length]
  have whole : (b.received.take b.pos ++ front ++ middle).length =
      b.pos + front.length + middle.length := by
    rw [List.length_append, before]
  have split : b.received = b.received.take b.pos ++ front ++ middle ++ back := by
    rw [List.append_assoc, List.append_assoc, ← pending]
    exact (List.take_append_drop _ _).symm
  rw [slice, split, List.take_left' whole, List.drop_left' before]

theorem length_pending : b.pos + b.pending.length = b.last := by
  rw [OsBuf.pending, List.length_drop, wf.received_length, Nat.add_sub_cancel' wf.pos_le]

/-- A string of bytes that are pending. -/
theorem holds_of_pending (front middle back : List UInt8)
    (pending : b.pending = front ++ (middle ++ back)) {p : Nat} {len : Int}
    (here : p = b.pos + front.length) (length : len = middle.length) :
    OsString.Holds ⟨.header p, len⟩ b middle := by
  have inside : b.pos + front.length + middle.length ≤ b.last := by
    rw [← length_pending wf, pending, List.length_append, List.length_append]
    omega
  have order : b.pos + front.length ≤ b.pos + front.length + middle.length := Nat.le_add_right _ _
  have holds := OsString.holds_header (wf.size ▸ wf.last_le) order inside
  rw [slice_of_pending wf front middle back pending, ← here] at holds
  have same : len = ((p + middle.length : Nat) : Int) - (p : Nat) := by omega
  rwa [same]

/-- The code of the method that is pending. -/
theorem methodCode_pending {method word : List UInt8} (pending : b.pending = method ++ word) :
    methodCode (fun i => b.byte (b.pos + i)) method.length 0 = tokenCode method := by
  have inside := length_pending wf
  rw [pending, List.length_append] at inside
  have length : (b.received.take (b.pos + method.length)).length = b.pos + method.length := by
    rw [List.length_take, wf.received_length, min_eq_left (by omega)]
  have bound : b.pos ≤ (b.received.take (b.pos + method.length)).length := by omega
  have code := methodCode_of_prefix wf (List.take_prefix _ b.received) bound
  have bytes := slice_of_pending wf [] method word pending
  rw [List.length_nil, Nat.add_zero] at bytes
  rwa [length, slice_take le_rfl, Nat.add_sub_cancel_left, bytes] at code

/-- The run of the parser over a line. -/
theorem lineRun_text (line : PlainLine) {rest : List UInt8}
    (pending : b.pending = line.text ++ rest) :
    ∃ ext args plus, lineRun .fresh b = .stopped
      (.done (b.pos + line.request.length + 1) (line.recorded b.pos ext args plus)) rest := by
  have split : b.pending =
      line.method ++ sp :: (line.target ++ sp :: (line.version ++ [cr, lf] ++ rest)) := by
    rw [pending, PlainLine.text, PlainLine.request]
    simp only [List.append_assoc, List.cons_append]
  have code := methodCode_pending wf split
  obtain ⟨state, ext, args, plus, after, target⟩ := run_target (b := b)
    (p := b.pos + line.method.length + 1)
    (r := ((HttpRequest.fresh.setRequestStart b.pos).setMethodEnd
      (b.pos + line.method.length - 1)).setMethod (tokenCode line.method))
    line (line.version ++ [cr, lf] ++ rest)
  refine ⟨ext, args, plus, ?_⟩
  have method := run_method (b := b) (p := b.pos) (r := .fresh) line.method_ne line.method_bytes
    (line.target ++ sp :: (line.version ++ [cr, lf] ++ rest))
  rw [show HttpRequest.fresh.method = 0 from rfl, code] at method
  rw [lineRun, split]
  change run (lineMove b) ⟨b.pos, .swStart, .fresh⟩ _ = _
  rw [method, target, run_version line rest after, ← line.length_request b.pos]
  rfl

/-- A call of the parser on a line. -/
theorem parse_text (line : PlainLine) {rest : List UInt8}
    (pending : b.pending = line.text ++ rest) :
    ∃ ext args plus, httpParseRequestLine .fresh b =
      (.osOk, lineDone (b.pos + line.request.length + 1) (line.recorded b.pos ext args plus),
        { b with pos := b.pos + line.text.length }) := by
  obtain ⟨ext, args, plus, reached⟩ := lineRun_text wf line pending
  refine ⟨ext, args, plus, ?_⟩
  have version := line.httpVersion_recorded b.pos (b.pos + line.request.length + 1) ext args plus
  have accepted : doneCode (lineDone (b.pos + line.request.length + 1)
      (line.recorded b.pos ext args plus)) = .osOk := by
    refine if_neg fun refused => ?_
    rw [refused.1] at version
    have := line.one_le_major
    change 9 = _ at version
    omega
  rw [httpParseRequestLine_eq wf, reached, lineResult, accepted, line.length_text]
  rfl

end Whole

/-! ## What the handler gets -/

/-- The parts of a line as strings of a request. -/
structure PlainLine.Got (line : PlainLine) (r : HttpRequest) (b : OsBuf) : Prop where
  method : r.method = tokenCode line.method
  methodName : r.methodName.Holds b line.method
  requestLine : r.requestLine.Holds b line.request
  unparsedUri : r.unparsedUri.Holds b line.target
  uri : r.uri.Holds b line.path
  args : r.args.Holds b (line.query.getD [])
  exten : r.exten.Holds b (extensionOf line.path)
  httpProtocol : r.httpProtocol.Holds b line.version
  httpMajor : r.httpMajor.toNat = decimal line.major
  httpMinor : r.httpMinor.toNat = decimal line.minor
  httpVersion : r.httpVersion.toNat = 1000 * decimal line.major + decimal line.minor
  requestLength : r.requestLength = line.text.length

/-- The parser accepts a line and leaves `rest` in the buffer, and the handler gets the parts. -/
structure PlainLine.Returned (line : PlainLine) (rest : List UInt8)
    (result : LineCode × HttpRequest × OsBuf) : Prop where
  code : result.1 = .osOk
  pending : result.2.2.pending = rest
  got : line.Got (finishRequestLine result.2.1 result.2.2).1 result.2.2
  verdict : (finishRequestLine result.2.1 result.2.2).2 = .processRequestHeaders

theorem PlainLine.pathOf_target (line : PlainLine) :
    pathOf line.target = line.path ∧ argsOf line.target = line.query.getD [] := by
  rw [target]
  cases line.query with
  | none =>
      rw [Option.map_none, Option.getD_none, List.append_nil]
      exact pathOf_of_notMem line.watched.question
  | some args => exact pathOf_append args line.watched.question

/-- The rest of the handler for a line without a host and with a version of its own. -/
theorem finishRequestLine_recorded (line : PlainLine) (pos p : Nat) (ext args : Option Nat)
    (plus : Bool) (b : OsBuf) :
    finishRequestLine (lineDone p (line.recorded pos ext args plus)) b =
      (processedRequest (lineDone p (line.recorded pos ext args plus)) b,
        .processRequestHeaders) := by
  have version := line.httpVersion_recorded pos p ext args plus
  have explicit :
      ¬(lineDone p (line.recorded pos ext args plus)).httpVersion < osHttpVersion10 := by
    rw [UInt32.lt_iff_toNat_lt, version]
    have := line.one_le_major
    change ¬_ < 1000
    omega
  exact if_neg explicit

/-- The handler after one call of the parser. -/
theorem returned_of_text {b : OsBuf} (wf : b.WellFormed) (line : PlainLine) {rest : List UInt8}
    (pending : b.pending = line.text ++ rest) :
    line.Returned rest (httpParseRequestLine .fresh b) := by
  obtain ⟨ext, args, plus, accepted⟩ := parse_text wf line pending
  obtain ⟨wf', -, received⟩ := buffer_of_osOk wf accepted
  have method : b.pending =
      [] ++ (line.method ++ (sp :: (line.target ++ sp :: line.version) ++ [cr, lf] ++ rest)) := by
    rw [pending, PlainLine.text, PlainLine.request]
    simp only [List.append_assoc, List.cons_append, List.nil_append]
  have target : b.pending =
      (line.method ++ [sp]) ++ (line.target ++ (sp :: (line.version ++ [cr, lf] ++ rest))) := by
    rw [method]
    simp only [List.append_assoc, List.cons_append, List.nil_append]
  have version : b.pending =
      (line.method ++ sp :: (line.target ++ [sp])) ++ (line.version ++ ([cr, lf] ++ rest)) := by
    rw [method]
    simp only [List.append_assoc, List.cons_append, List.nil_append]
  have whole : b.pending = [] ++ (line.request ++ ([cr, lf] ++ rest)) := by
    rw [pending, PlainLine.text, List.append_assoc, List.nil_append]
  have request_length := line.length_request b.pos
  have method_length := List.length_pos_iff.mpr line.method_ne
  obtain ⟨start, stop, here, there, components⟩ := components_of_osOk wf accepted rfl rfl
  obtain rfl : line.targetAt b.pos = start := Option.some.inj here
  obtain rfl : line.targetAt b.pos + line.target.length = stop := Option.some.inj there
  have slice_eq := slice_of_pending wf _ _ _ target
  rw [show b.pos + (line.method ++ [sp]).length = line.targetAt b.pos by
    simp [PlainLine.targetAt, Nat.add_assoc]] at slice_eq
  rw [received, slice_eq] at components
  obtain ⟨path_eq, args_eq⟩ := line.pathOf_target
  have httpVersion :=
    line.httpVersion_recorded b.pos (b.pos + line.request.length + 1) ext args plus
  have finished := finishRequestLine_recorded line b.pos (b.pos + line.request.length + 1) ext args
    plus { b with pos := b.pos + line.text.length }
  rw [accepted]
  refine ⟨rfl, ?_, ?_, by rw [finished]⟩
  · change b.received.drop (b.pos + line.text.length) = rest
    rw [← List.drop_drop]
    change b.pending.drop line.text.length = rest
    rw [pending, List.drop_left]
  · rw [finished]
    refine ⟨rfl, ?_, ?_, components.unparsedUri, path_eq ▸ components.uri,
      args_eq ▸ components.args, path_eq ▸ components.exten, ?_, ?_, ?_, httpVersion, ?_⟩
    · refine holds_of_pending wf _ _ _ method rfl ?_
      change ((b.pos + line.method.length - 1 : Nat) : Int) - b.pos + 1 = _
      omega
    · refine holds_of_pending wf _ _ _ whole rfl ?_
      change ((line.versionAt b.pos + line.version.length : Nat) : Int) - b.pos = _
      omega
    · refine holds_of_pending wf _ _ _ version ?_ ?_
      · simp [PlainLine.versionAt, PlainLine.targetAt, Nat.add_assoc, Nat.add_comm 1]
      · change ((line.versionAt b.pos + line.version.length : Nat) : Int) - line.versionAt b.pos = _
        omega
    · exact UInt16.toNat_ofNat_of_lt line.major_small
    · exact UInt16.toNat_ofNat_of_lt line.minor_small
    · change ((b.pos + line.text.length : Nat) : Int) - b.pos = _
      omega

/-! ## Lines that arrive in pieces -/

/-- A part of a line makes the parser ask for more. -/
theorem parse_part {b : OsBuf} (wf : b.WellFormed) (line : PlainLine) {more : List UInt8}
    (room : more.length ≤ b.end - b.last) (part : b.pending ++ more = line.text)
    (nonempty : more ≠ []) : (httpParseRequestLine .fresh b).1 = .osAgain := by
  have pending : (b.append more).pending = line.text ++ [] := by
    rw [wf.append_pending, part, List.append_nil]
  obtain ⟨ext, args, plus, whole⟩ := lineRun_text (wf.append room) line pending
  have same : run (lineMove (b.append more)) ⟨b.pos, .swStart, .fresh⟩ b.pending =
      lineRun .fresh b := by
    refine run_congr _ _ fun q below => wf.append_byte ?_
    have := length_pending wf
    simp only at below
    omega
  refine (httpParseRequestLine_code wf .fresh).2.1.mpr ?_
  cases reached : lineRun .fresh b with
  | pending c => exact ⟨c, rfl⟩
  | stopped out rest =>
      rw [reached] at same
      have longer := run_append_of_stopped _ more same
      rw [part, ← List.append_nil line.text, ← pending] at longer
      have left_over := (Outcome.stopped.inj (longer.symm.trans whole)).2
      exact (nonempty (List.append_eq_nil_iff.mp left_over).2).elim

/-- The parser while the bytes of a line arrive: the line is there, or it asks for more. -/
theorem parse_cases {b : OsBuf} (wf : b.WellFormed) (line : PlainLine) {more rest : List UInt8}
    (room : more.length ≤ b.end - b.last) (stream : b.pending ++ more = line.text ++ rest) :
    (∃ front, front ++ more = rest ∧ line.Returned front (httpParseRequestLine .fresh b)) ∨
      (httpParseRequestLine .fresh b).1 = .osAgain ∧ more ≠ [] := by
  rcases List.append_eq_append_iff.mp stream with ⟨part, whole, split⟩ | ⟨front, whole, split⟩
  · cases part with
    | nil =>
        refine Or.inl ⟨[], split, returned_of_text wf line ?_⟩
        rw [whole, List.append_nil, List.append_nil]
    | cons c part =>
        have shorter : (c :: part).length ≤ b.end - b.last := by
          rw [split, List.length_append] at room
          omega
        refine Or.inr ⟨parse_part wf line shorter whole.symm (List.cons_ne_nil c part), ?_⟩
        rw [split, List.cons_append]
        exact List.cons_ne_nil c _
  · exact Or.inl ⟨front, split.symm, returned_of_text wf line whole⟩

/-- While the bytes of a line arrive the parser never fails. -/
theorem parse_not_error {b : OsBuf} (wf : b.WellFormed) (line : PlainLine) {more rest : List UInt8}
    (room : more.length ≤ b.end - b.last) (stream : b.pending ++ more = line.text ++ rest) :
    ¬(httpParseRequestLine .fresh b).1.IsError := by
  rcases parse_cases wf line room stream with ⟨front, -, returned⟩ | ⟨again, -⟩
  · simp [returned.code, LineCode.IsError]
  · simp [again, LineCode.IsError]

/-- The calls of the parser from one on that gives what a first call on the bytes so far gives. -/
theorem resume_returned {b : OsBuf} (wf : b.WellFormed) (line : PlainLine) {rest : List UInt8}
    (chunks : List (List UInt8)) {seen : List UInt8} {r₁ : HttpRequest} {b₁ : OsBuf}
    (room : (seen ++ chunks.flatten).length ≤ b.end - b.last)
    (stream : b.pending ++ (seen ++ chunks.flatten) = line.text ++ rest)
    (same : httpParseRequestLine r₁ b₁ = httpParseRequestLine .fresh (b.append seen)) :
    ∃ front unread, front ++ unread = rest ∧
      line.Returned front (resumeRequestLine r₁ b₁ chunks) := by
  -- what is left to arrive fits behind any part of it that is there
  have after : ∀ {seen more}, (seen ++ more).length ≤ b.end - b.last →
      b.pending ++ (seen ++ more) = line.text ++ rest →
      (b.append seen).WellFormed ∧ more.length ≤ (b.append seen).end - (b.append seen).last ∧
        (b.append seen).pending ++ more = line.text ++ rest := by
    intro seen more room stream
    rw [List.length_append] at room
    refine ⟨wf.append (by omega), ?_, ?_⟩
    · simp only [OsBuf.append]
      omega
    · rw [wf.append_pending, List.append_assoc, stream]
  induction chunks generalizing seen r₁ b₁ with
  | nil =>
      obtain ⟨wf', room', stream'⟩ := after room stream
      rcases parse_cases wf' line room' stream' with ⟨front, split, returned⟩ | ⟨-, more⟩
      · exact ⟨front, [], split, by rwa [resumeRequestLine, same]⟩
      · exact (more rfl).elim
  | cons chunk chunks induction =>
      obtain ⟨wf', room', stream'⟩ := after room stream
      rcases called : httpParseRequestLine r₁ b₁ with ⟨code, r₂, b₂⟩
      rw [resumeRequestLine, called]
      rcases parse_cases wf' line room' stream' with ⟨front, split, returned⟩ | ⟨again, -⟩
      · rw [← same, called] at returned
        obtain rfl : code = .osOk := returned.code
        exact ⟨front, _, split, returned⟩
      · rw [← same, called] at again
        obtain rfl : code = .osAgain := again
        rw [List.flatten_cons, ← List.append_assoc seen] at room stream
        obtain ⟨wf'', room'', stream''⟩ := after room stream
        rw [List.flatten_cons, List.length_append] at room'
        have fits : chunk.length ≤ (b.append seen).end - (b.append seen).last := by omega
        have resumed := (httpParseRequestLine_resume wf' fits (same ▸ called)).2.2
        rw [wf.append_append] at resumed
        exact induction room stream (resumed (parse_not_error wf'' line room'' stream''))

/-- A line that a client writes arrives whole: however its bytes and the ones after it are cut, the
calls of the parser accept it, the handler gets the parts it was written from, and the bytes after
it are left in the buffer or have not been asked for. -/
theorem written_line_read (line : PlainLine) (b : OsBuf) (wf : b.WellFormed)
    (chunks : List (List UInt8)) (rest : List UInt8)
    (room : chunks.flatten.length ≤ b.end - b.last)
    (stream : b.pending ++ chunks.flatten = line.text ++ rest) :
    ∃ front unread, front ++ unread = rest ∧
      line.Returned front (resumeRequestLine .fresh b chunks) := by
  have same : httpParseRequestLine .fresh b = httpParseRequestLine .fresh (b.append []) := by
    rw [b.append_nil]
  rw [← List.nil_append chunks.flatten] at room stream
  exact resume_returned wf line chunks room stream same

/-- `GET /?a HTTP/1.1` -/
def rootLine : PlainLine where
  method := [chr 'G', chr 'E', chr 'T']
  path := [chr '/']
  query := some [chr 'a']
  major := [chr '1']
  minor := [chr '1']
  method_ne := by decide +kernel
  method_bytes := by decide +kernel
  watched := .root
  path_bytes := by decide +kernel
  query_bytes := by decide +kernel
  major_ne := by decide +kernel
  major_digits := by decide +kernel
  major_leading := by decide +kernel
  minor_ne := by decide +kernel
  minor_digits := by decide +kernel
  major_small := by decide +kernel
  minor_small := by decide +kernel

/-- The line arrives in two pieces, and the line end after it with the second. -/
theorem written_line_read_rootLine : ∃ front unread, front ++ unread = [cr, lf] ∧
    rootLine.Returned front (resumeRequestLine .fresh (OsBuf.zeroed 64)
      [rootLine.text.take 9, rootLine.text.drop 9 ++ [cr, lf]]) :=
  written_line_read rootLine (OsBuf.zeroed 64) (OsBuf.zeroed_wellFormed 64) _ [cr, lf] (by decide)
    (by decide)

end Http
end OstrichServer
