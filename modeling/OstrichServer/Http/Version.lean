import OstrichServer.Http.Query

/-!
# The version of a request line

The digits after "HTTP/" are accumulated into two 16-bit fields without a bound, and
`r->http_version` combines them.  So the version is exact up to 65535, and two versions fall
together when a minor number reaches 1000.
-/

namespace OstrichServer
namespace Http

open StoppingReader

/-! ## Version text -/

/-- A number with one more decimal digit. -/
def appendDigit (number : Nat) (digit : UInt8) : Nat := 10 * number + (digit.toNat - 48)

/-- The number a string of digits stands for. -/
def decimal (digits : List UInt8) : Nat := digits.foldl appendDigit 0

/-- "HTTP/" -/
def versionName : List UInt8 := [chr 'H', chr 'T', chr 'T', chr 'P', chr '/']

/-- A line ends in a space, "HTTP/", the digits `major`, '.', the digits `minor`, any number of
spaces and a line end. -/
structure EndsInVersion (line major minor : List UInt8) : Prop where
  major_ne : major ≠ []
  minor_ne : minor ≠ []
  major_digits : ∀ c ∈ major, isDigit c = true
  minor_digits : ∀ c ∈ minor, isDigit c = true
  text : ∃ front count lineEnd, (lineEnd = [lf] ∨ lineEnd = [cr, lf]) ∧
    line = front ++ [sp] ++
      (versionName ++ (major ++ chr '.' :: (minor ++ (List.replicate count sp ++ lineEnd))))

private theorem digit_bounds : ∀ c, isDigit c = true → 48 ≤ c.toNat ∧ c.toNat ≤ 57 := by
  decide +kernel

/-- One step of the accumulation. -/
theorem accumulate_digit (number : Nat) {digit : UInt8} (is_digit : isDigit digit = true) :
    UInt16.ofNat number * 10 + digit.toUInt16 - 48 =
      UInt16.ofNat (appendDigit number digit) := by
  obtain ⟨low, high⟩ := digit_bounds digit is_digit
  rw [← UInt16.toNat_inj, appendDigit]
  simp only [UInt16.toNat_sub, UInt16.toNat_add, UInt16.toNat_mul, UInt16.toNat_ofNat',
    UInt8.toNat_toUInt16, UInt16.reduceToNat]
  omega

/-- The first digit. -/
theorem first_digit {digit : UInt8} (is_digit : isDigit digit = true) :
    digit.toUInt16 - 48 = UInt16.ofNat (appendDigit 0 digit) := by
  rw [← accumulate_digit 0 is_digit, show UInt16.ofNat 0 = 0 from rfl, UInt16.zero_mul,
    UInt16.zero_add]

theorem le_foldl_appendDigit (digits : List UInt8) (number : Nat) :
    number ≤ digits.foldl appendDigit number := by
  induction digits generalizing number with
  | nil => exact le_rfl
  | cons digit digits induction =>
      refine le_trans ?_ (induction (appendDigit number digit))
      unfold appendDigit
      omega

/-! ## Reading the version -/

section Reading

variable {b : OsBuf} {p : Nat} {state next : LineState} {r r' last : HttpRequest} {c : UInt8}
  {word rest : List UInt8} {q : Nat}

/-- An accepted run goes on with the next byte. -/
theorem run_of_next (step : lineStep b p c state r = .next next r')
    (stopped : run (lineMove b) ⟨p, state, r⟩ (c :: word) = .stopped (.done q last) rest) :
    run (lineMove b) ⟨p + 1, next, r'⟩ word = .stopped (.done q last) rest := by
  have moved : lineMove b ⟨p, state, r⟩ c = .go ⟨p + 1, next, r'⟩ := by
    simp [lineMove, lineByte, step, LineMove.toMove]
  rwa [run_cons_go _ _ moved] at stopped

/-- An accepted run does not fail. -/
theorem not_fail_of_run {code : LineCode} (step : lineStep b p c state r = .fail code r')
    (stopped : run (lineMove b) ⟨p, state, r⟩ (c :: word) = .stopped (.done q last) rest) :
    False := by
  have moved : lineMove b ⟨p, state, r⟩ c = .stop (.fail code r') := by
    simp [lineMove, lineByte, step, LineMove.toMove]
  simp [run_cons_stop _ _ moved] at stopped

/-- An accepted run ends where the parser reaches `done`. -/
theorem eq_of_run_done (step : lineStep b p c state r = .done r')
    (stopped : run (lineMove b) ⟨p, state, r⟩ (c :: word) = .stopped (.done q last) rest) :
    last = r' := by
  have moved : lineMove b ⟨p, state, r⟩ c = .stop (.done p r') := by
    simp [lineMove, lineByte, step, LineMove.toMove]
  rw [run_cons_stop _ _ moved] at stopped
  simp only [Outcome.stopped.injEq, LineStop.done.injEq] at stopped
  exact stopped.1.2.symm

/-- The states in which a space leaves the parser. -/
def LineState.followsSpace : LineState → Prop
  | .swSpacesBeforeUri | .swHostHttp09 | .swCheckUriHttp09 | .swHttp09 | .swSpacesAfterDigit => True
  | _ => False

/-- A space never ends a line and is never read again. -/
theorem lineStep_space (b : OsBuf) (p : Nat) (state : LineState) (r : HttpRequest) :
    (lineStep b p sp state r).Ensures (fun next _ => next.followsSpace) (fun _ _ => False)
      (fun _ _ => True) (fun _ => False) := by
  cases state <;> simp +decide [lineStep, lineHost, lineHostEnd, LineMove.Ensures,
    LineState.followsSpace]

theorem followsSpace_of_move {before after : LineConfig}
    (moved : lineMove b before sp = .go after) : after.state.followsSpace := by
  have turn := lineStep_space b before.p before.state before.r
  cases step : lineStep b before.p sp before.state before.r with
  | next state r =>
      rw [step] at turn
      obtain rfl : ⟨before.p + 1, state, r⟩ = after := by
        simpa [lineMove, lineByte, step, LineMove.toMove] using moved
      exact turn
  | back state r =>
      rw [step] at turn
      exact turn.elim
  | fail | done => simp [lineMove, lineByte, step, LineMove.toMove] at moved

/-- After a space only the states that look for a version read "HTTP/" to its end. -/
theorem run_versionName (follows : state.followsSpace)
    (stopped : run (lineMove b) ⟨p, state, r⟩ (versionName ++ word) =
      .stopped (.done q last) rest) :
    ∃ p' r', run (lineMove b) ⟨p', .swFirstMajorDigit, r'⟩ word = .stopped (.done q last) rest := by
  have version : ∀ p r, run (lineMove b) ⟨p, .swHttpH, r⟩
      (chr 'T' :: chr 'T' :: chr 'P' :: chr '/' :: word) = .stopped (.done q last) rest →
      ∃ p' r', run (lineMove b) ⟨p', .swFirstMajorDigit, r'⟩ word =
        .stopped (.done q last) rest := by
    intro p r reading
    have afterT : ∀ p, lineStep b p (chr 'T') .swHttpH r = .next .swHttpHT r := fun _ => rfl
    have afterTT : ∀ p, lineStep b p (chr 'T') .swHttpHT r = .next .swHttpHTT r := fun _ => rfl
    have afterP : ∀ p, lineStep b p (chr 'P') .swHttpHTT r = .next .swHttpHTTP r := fun _ => rfl
    have afterSlash : ∀ p, lineStep b p (chr '/') .swHttpHTTP r = .next .swFirstMajorDigit r :=
      fun _ => rfl
    have second := run_of_next (afterT p) reading
    have third := run_of_next (afterTT _) second
    have fourth := run_of_next (afterP _) third
    exact ⟨_, _, run_of_next (afterSlash _) fourth⟩
  have start : ∀ state, state = .swHostHttp09 ∨ state = .swCheckUriHttp09 ∨ state = .swHttp09 →
      lineStep b p (chr 'H') state r = .next .swHttpH (r.setHttpProtocolData p) := by
    rintro _ (rfl | rfl | rfl) <;> rfl
  rw [versionName] at stopped
  simp only [List.cons_append, List.nil_append] at stopped
  cases state with
  | swHostHttp09 | swCheckUriHttp09 | swHttp09 =>
      exact version _ _ (run_of_next (start _ (by simp)) stopped)
  | swSpacesBeforeUri =>
      -- "HTTP" is read as a schema, which no '/' may follow
      obtain ⟨r₀, start⟩ : ∃ r₀, lineStep b p (chr 'H') .swSpacesBeforeUri r =
          .next .swSchema r₀ := ⟨_, rfl⟩
      have letter : ∀ p c, c = chr 'T' ∨ c = chr 'P' →
          lineStep b p c .swSchema r₀ = .next .swSchema r₀ := by
        rintro p c (rfl | rfl) <;> rfl
      have first := run_of_next start stopped
      have second := run_of_next (letter _ _ (.inl rfl)) first
      have third := run_of_next (letter _ _ (.inl rfl)) second
      have fourth := run_of_next (letter _ _ (.inr rfl)) third
      have slash : ∃ code r', ∀ p, lineStep b p (chr '/') .swSchema r₀ = .fail code r' :=
        ⟨_, _, fun _ => rfl⟩
      obtain ⟨_, _, slash⟩ := slash
      exact (not_fail_of_run (slash _) fourth).elim
  | swSpacesAfterDigit => exact (not_fail_of_run rfl stopped).elim
  | _ => exact follows.elim

/-- The digits of the major number after the first. -/
theorem run_major_digits {digits : List UInt8} (all : ∀ c ∈ digits, isDigit c = true) {number : Nat}
    (value : r.httpMajor = UInt16.ofNat number)
    (stopped : run (lineMove b) ⟨p, .swMajorDigit, r⟩ (digits ++ chr '.' :: word) =
      .stopped (.done q last) rest) :
    ∃ p' r', run (lineMove b) ⟨p', .swFirstMinorDigit, r'⟩ word = .stopped (.done q last) rest ∧
      r'.httpMajor = UInt16.ofNat (digits.foldl appendDigit number) := by
  induction digits generalizing p r number with
  | nil =>
      have dot : lineStep b p (chr '.') .swMajorDigit r = .next .swFirstMinorDigit r := rfl
      exact ⟨_, r, run_of_next dot stopped, value⟩
  | cons digit digits induction =>
      have is_digit := all digit List.mem_cons_self
      have not_dot : digit ≠ chr '.' := by
        rintro rfl
        exact absurd is_digit (by decide)
      have step : lineStep b p digit .swMajorDigit r =
          .next .swMajorDigit (r.setHttpMajor (r.httpMajor * 10 + digit.toUInt16 - 48)) := by
        simp only [lineStep]
        rw [if_neg not_dot, if_neg (not_not.mpr is_digit)]
      refine induction (fun c member => all c (List.mem_cons_of_mem _ member)) ?_
        (run_of_next step stopped)
      change r.httpMajor * 10 + digit.toUInt16 - 48 = _
      rw [value]
      exact accumulate_digit number is_digit

/-- The major number. -/
theorem run_major {major : List UInt8} (nonempty : major ≠ [])
    (all : ∀ c ∈ major, isDigit c = true)
    (stopped : run (lineMove b) ⟨p, .swFirstMajorDigit, r⟩ (major ++ chr '.' :: word) =
      .stopped (.done q last) rest) :
    1 ≤ decimal major ∧
      ∃ p' r', run (lineMove b) ⟨p', .swFirstMinorDigit, r'⟩ word = .stopped (.done q last) rest ∧
        r'.httpMajor = UInt16.ofNat (decimal major) := by
  obtain ⟨digit, digits, rfl⟩ := List.exists_cons_of_ne_nil nonempty
  have is_digit := all digit List.mem_cons_self
  by_cases bad : digit < chr '1' ∨ chr '9' < digit
  · have step : lineStep b p digit .swFirstMajorDigit r = .fail .invalidRequest r := by
      simp only [lineStep]
      rw [if_pos bad]
    exact (not_fail_of_run step stopped).elim
  · have step : lineStep b p digit .swFirstMajorDigit r =
        .next .swMajorDigit (r.setHttpMajor (digit.toUInt16 - 48)) := by
      simp only [lineStep]
      rw [if_neg bad]
    refine ⟨?_, run_major_digits (fun c member => all c (List.mem_cons_of_mem _ member))
      (first_digit is_digit) (run_of_next step stopped)⟩
    refine le_trans ?_ (le_foldl_appendDigit digits (appendDigit 0 digit))
    have positive : 49 ≤ digit.toNat := not_lt.mp fun less => bad (Or.inl less)
    unfold appendDigit
    omega

/-- The digits of the minor number after the first. -/
theorem run_minor_digits {digits : List UInt8} (all : ∀ c ∈ digits, isDigit c = true) {number : Nat}
    (value : r.httpMinor = UInt16.ofNat number)
    (stopped : run (lineMove b) ⟨p, .swMinorDigit, r⟩ (digits ++ word) =
      .stopped (.done q last) rest) :
    ∃ p' r', run (lineMove b) ⟨p', .swMinorDigit, r'⟩ word = .stopped (.done q last) rest ∧
      r'.httpMajor = r.httpMajor ∧
      r'.httpMinor = UInt16.ofNat (digits.foldl appendDigit number) := by
  induction digits generalizing p r number with
  | nil => exact ⟨p, r, stopped, rfl, value⟩
  | cons digit digits induction =>
      have is_digit := all digit List.mem_cons_self
      have others : digit ≠ cr ∧ digit ≠ lf ∧ digit ≠ sp := by
        refine ⟨?_, ?_, ?_⟩ <;> rintro rfl <;> exact absurd is_digit (by decide)
      have step : lineStep b p digit .swMinorDigit r =
          .next .swMinorDigit (r.setHttpMinor (r.httpMinor * 10 + digit.toUInt16 - 48)) := by
        simp only [lineStep]
        rw [if_neg others.1, if_neg others.2.1, if_neg others.2.2, if_neg (not_not.mpr is_digit)]
      have value' : (r.setHttpMinor (r.httpMinor * 10 + digit.toUInt16 - 48)).httpMinor =
          UInt16.ofNat (appendDigit number digit) := by
        change r.httpMinor * 10 + digit.toUInt16 - 48 = _
        rw [value]
        exact accumulate_digit number is_digit
      obtain ⟨p', r', reading, major, minor⟩ := induction
        (fun c member => all c (List.mem_cons_of_mem _ member)) value' (run_of_next step stopped)
      exact ⟨p', r', reading, major, minor⟩

/-- The minor number. -/
theorem run_minor {minor : List UInt8} (nonempty : minor ≠ [])
    (all : ∀ c ∈ minor, isDigit c = true)
    (stopped : run (lineMove b) ⟨p, .swFirstMinorDigit, r⟩ (minor ++ word) =
      .stopped (.done q last) rest) :
    ∃ p' r', run (lineMove b) ⟨p', .swMinorDigit, r'⟩ word = .stopped (.done q last) rest ∧
      r'.httpMajor = r.httpMajor ∧ r'.httpMinor = UInt16.ofNat (decimal minor) := by
  obtain ⟨digit, digits, rfl⟩ := List.exists_cons_of_ne_nil nonempty
  have is_digit := all digit List.mem_cons_self
  have step : lineStep b p digit .swFirstMinorDigit r =
      .next .swMinorDigit (r.setHttpMinor (digit.toUInt16 - 48)) := by
    simp only [lineStep]
    rw [if_neg (not_not.mpr is_digit)]
  obtain ⟨p', r', reading, major, value⟩ :=
    run_minor_digits (fun c member => all c (List.mem_cons_of_mem _ member))
      (r := r.setHttpMinor (digit.toUInt16 - 48)) (first_digit is_digit)
      (run_of_next step stopped)
  exact ⟨p', r', reading, major, value⟩

/-- The spaces and the line end after the version leave its numbers alone. -/
theorem run_version_end {count : Nat} {lineEnd : List UInt8}
    (ends : lineEnd = [lf] ∨ lineEnd = [cr, lf])
    (reads : state = .swMinorDigit ∨ state = .swSpacesAfterDigit)
    (stopped : run (lineMove b) ⟨p, state, r⟩ (List.replicate count sp ++ (lineEnd ++ word)) =
      .stopped (.done q last) rest) :
    last.httpMajor = r.httpMajor ∧ last.httpMinor = r.httpMinor := by
  induction count generalizing p state with
  | zero =>
      rw [List.replicate_zero, List.nil_append] at stopped
      rcases ends with rfl | rfl
      · have step : lineStep b p lf state r = .done r := by
          rcases reads with rfl | rfl <;> rfl
        rw [eq_of_run_done step stopped]
        exact ⟨rfl, rfl⟩
      · have step : lineStep b p cr state r = .next .swAlmostDone r := by
          rcases reads with rfl | rfl <;> rfl
        have almost : lineStep b (p + 1) lf .swAlmostDone r = .done (r.setRequestEnd p) := rfl
        rw [eq_of_run_done almost (run_of_next step stopped)]
        exact ⟨rfl, rfl⟩
  | succ count induction =>
      rw [List.replicate_succ, List.cons_append] at stopped
      have step : lineStep b p sp state r = .next .swSpacesAfterDigit r := by
        rcases reads with rfl | rfl <;> rfl
      exact induction (Or.inr rfl) (run_of_next step stopped)

end Reading

/-! ## Accepted lines -/

/-- The numbers of a version that one call accepts. -/
theorem version_of_osOk {b b' : OsBuf} (wf : b.WellFormed) {r : HttpRequest}
    (accepted : httpParseRequestLine .fresh b = (.osOk, r, b')) {major minor : List UInt8}
    (ends : EndsInVersion (slice b'.received b.pos b'.pos) major minor) :
    1 ≤ decimal major ∧ r.httpMajor = UInt16.ofNat (decimal major) ∧
      r.httpMinor = UInt16.ofNat (decimal minor) ∧
      r.httpVersion = r.httpMajor.toUInt32 * 1000 + r.httpMinor.toUInt32 := by
  obtain ⟨p, r', rest, reached, rfl, rfl⟩ := lineRun_of_osOk wf accepted
  obtain ⟨front, count, lineEnd, finish, text⟩ := ends.text
  have word := pending_of_done reached
  change slice b.received b.pos (p + 1) = _ at text
  rw [lineRun, word, text, List.append_assoc] at reached
  obtain ⟨c, after, reached⟩ := exists_pending_of_stopped _ reached (by
    simp only [versionName, List.length_append, List.length_cons, List.length_nil]
    omega)
  obtain ⟨before, -, spaced⟩ := exists_pending_of_pending _ after
  have follows := followsSpace_of_move (go_of_pending_singleton _ spaced)
  simp only [List.append_assoc, List.cons_append] at reached
  obtain ⟨_, _, reached⟩ := run_versionName follows reached
  obtain ⟨positive, _, r₁, reached, major_eq⟩ := run_major ends.major_ne ends.major_digits reached
  obtain ⟨_, r₂, reached, same, minor_eq⟩ := run_minor ends.minor_ne ends.minor_digits reached
  obtain ⟨major_same, minor_same⟩ := run_version_end finish (Or.inl rfl) reached
  refine ⟨positive, ?_, ?_, rfl⟩
  · change r'.httpMajor = _
    rw [major_same, same, major_eq]
  · change r'.httpMinor = _
    rw [minor_same, minor_eq]

/-- The value of `http_version`. -/
theorem httpVersion_toNat (major minor : Nat) :
    ((UInt16.ofNat major).toUInt32 * 1000 + (UInt16.ofNat minor).toUInt32).toNat =
      1000 * (major % 65536) + minor % 65536 := by
  simp only [UInt32.toNat_add, UInt32.toNat_mul, UInt16.toNat_toUInt32, UInt16.toNat_ofNat',
    UInt32.reduceToNat]
  omega

/-- A request whose line was accepted over any number of calls and ends in the version
`major.minor`. -/
def AcceptedVersion (r : HttpRequest) (major minor : List UInt8) : Prop :=
  ∃ (b b' : OsBuf) (chunks : List (List UInt8)), b.WellFormed ∧
    chunks.flatten.length ≤ b.end - b.last ∧
    resumeRequestLine .fresh b chunks = (.osOk, r, b') ∧
    EndsInVersion (slice b'.received b.pos b'.pos) major minor

/-- The version fields of a request hold the numbers `major` and `minor`, and a version of 1 or
more is not taken for HTTP/0.9. -/
structure VersionExact (r : HttpRequest) (major minor : Nat) : Prop where
  major_eq : r.httpMajor.toNat = major
  minor_eq : r.httpMinor.toNat = minor
  explicit : 1 ≤ major → osHttpVersion10 ≤ r.httpVersion

theorem AcceptedVersion.value {r : HttpRequest} {major minor : List UInt8}
    (accepted : AcceptedVersion r major minor) :
    1 ≤ decimal major ∧ r.httpMajor.toNat = decimal major % 65536 ∧
      r.httpMinor.toNat = decimal minor % 65536 ∧
      r.httpVersion.toNat = 1000 * (decimal major % 65536) + decimal minor % 65536 := by
  obtain ⟨b, b', chunks, wf, room, called, ends⟩ := accepted
  obtain ⟨more, fits, whole⟩ := resumeRequestLine_osOk wf room called
  obtain ⟨positive, major_eq, minor_eq, version⟩ := version_of_osOk (wf.append fits) whole ends
  refine ⟨positive, ?_, ?_, ?_⟩
  · rw [major_eq]
    exact UInt16.toNat_ofNat'
  · rw [minor_eq]
    exact UInt16.toNat_ofNat'
  · rw [version, major_eq, minor_eq, httpVersion_toNat]

/-- The version of one line is exact when both numbers fit 16 bits. -/
theorem AcceptedVersion.exact_iff {r : HttpRequest} {major minor : List UInt8}
    (accepted : AcceptedVersion r major minor) :
    VersionExact r (decimal major) (decimal minor) ↔
      decimal major < 65536 ∧ decimal minor < 65536 := by
  obtain ⟨positive, major_eq, minor_eq, version⟩ := accepted.value
  constructor
  · rintro ⟨major_same, minor_same, -⟩
    rw [major_eq] at major_same
    rw [minor_eq] at minor_same
    omega
  · rintro ⟨major_small, minor_small⟩
    refine ⟨by omega, by omega, fun _ => ?_⟩
    rw [UInt32.le_iff_toNat_le, version]
    change 1000 ≤ _
    omega

/-- Two accepted lines have exact versions which are told apart by `http_version` exactly when the
four numbers fit 16 bits and the two versions do not fall together as `major * 1000 + minor`. -/
theorem version_exact_iff (r r' : HttpRequest) (major minor major' minor' : List UInt8)
    (accepted : AcceptedVersion r major minor) (accepted' : AcceptedVersion r' major' minor') :
    VersionExact r (decimal major) (decimal minor) ∧
        VersionExact r' (decimal major') (decimal minor') ∧
        (r.httpVersion = r'.httpVersion →
          decimal major = decimal major' ∧ decimal minor = decimal minor') ↔
      (decimal major < 65536 ∧ decimal minor < 65536) ∧
        (decimal major' < 65536 ∧ decimal minor' < 65536) ∧
        (1000 * decimal major + decimal minor = 1000 * decimal major' + decimal minor' →
          decimal major = decimal major' ∧ decimal minor = decimal minor') := by
  obtain ⟨-, -, -, version⟩ := accepted.value
  obtain ⟨-, -, -, version'⟩ := accepted'.value
  rw [accepted.exact_iff, accepted'.exact_iff]
  refine and_congr_right fun small => and_congr_right fun small' => ?_
  have same : r.httpVersion = r'.httpVersion ↔
      1000 * decimal major + decimal minor = 1000 * decimal major' + decimal minor' := by
    rw [← UInt32.toNat_inj, version, version', Nat.mod_eq_of_lt small.1,
      Nat.mod_eq_of_lt small.2, Nat.mod_eq_of_lt small'.1, Nat.mod_eq_of_lt small'.2]
  rw [same]

theorem queryLine_acceptedVersion : AcceptedVersion queryRequest.1 [chr '1'] [chr '0'] := by
  refine ⟨.holding queryLine, queryRequest.2, [], OsBuf.holding_wellFormed queryLine, by simp,
    queryLine_accepted, by decide, by decide, by decide +kernel, by decide +kernel,
    queryLine.take 8, 0, [cr, lf], Or.inr rfl, ?_⟩
  rw [queryRequest, httpParseRequestLine_eq (OsBuf.holding_wellFormed queryLine)]
  decide +kernel

theorem version_exact_iff_queryLine : VersionExact queryRequest.1 1 0 :=
  ((version_exact_iff _ _ _ _ _ _ queryLine_acceptedVersion queryLine_acceptedVersion).mpr
    ⟨by decide, by decide, fun _ => ⟨rfl, rfl⟩⟩).1

/-- `GET / HTTP/65536.0` and a line end. -/
def overflowLine : List UInt8 :=
  [chr 'G', chr 'E', chr 'T', sp, chr '/', sp, chr 'H', chr 'T', chr 'T', chr 'P', chr '/',
    chr '6', chr '5', chr '5', chr '3', chr '6', chr '.', chr '0', cr, lf]

/-- The request and the buffer after the parser read `overflowLine`. -/
def overflowRequest : HttpRequest × OsBuf :=
  (httpParseRequestLine .fresh (.holding overflowLine)).2

theorem overflowLine_acceptedVersion :
    AcceptedVersion overflowRequest.1 [chr '6', chr '5', chr '5', chr '3', chr '6'] [chr '0'] := by
  have wf := OsBuf.holding_wellFormed overflowLine
  refine ⟨.holding overflowLine, overflowRequest.2, [], wf, by simp, Prod.ext ?_ rfl, by decide,
    by decide, by decide +kernel, by decide +kernel, overflowLine.take 5, 0, [cr, lf], Or.inr rfl,
      ?_⟩
  · change (httpParseRequestLine .fresh (.holding overflowLine)).1 = .osOk
    rw [httpParseRequestLine_eq wf]
    decide +kernel
  · rw [overflowRequest, httpParseRequestLine_eq wf]
    decide +kernel

theorem version_not_exact :
    ¬ ∀ (r r' : HttpRequest) (major minor major' minor' : List UInt8),
      AcceptedVersion r major minor → AcceptedVersion r' major' minor' →
      VersionExact r (decimal major) (decimal minor) ∧
        VersionExact r' (decimal major') (decimal minor') ∧
        (r.httpVersion = r'.httpVersion →
          decimal major = decimal major' ∧ decimal minor = decimal minor') := by
  intro always
  have exact := (always _ _ _ _ _ _ overflowLine_acceptedVersion overflowLine_acceptedVersion).1
  exact absurd (overflowLine_acceptedVersion.exact_iff.mp exact).1 (by decide)

end Http
end OstrichServer
