import OstrichServer.Http.Layout

/-!
# The end of a request line

A line ends in LF or CR LF, contains neither byte before, and `request_end` excludes them.  No
pointer recorded on the way is past that end.
-/

namespace OstrichServer
namespace Http

/-- Two invariants side by side. -/
theorem Keeps.and {holds holds' : List UInt8 → LineState → HttpRequest → Prop}
    {done done' : List UInt8 → HttpRequest → Prop} {seen : List UInt8} {ch : UInt8}
    {move : LineMove} (first : Keeps holds done seen ch move)
    (second : Keeps holds' done' seen ch move) :
    Keeps (fun seen state r => holds seen state r ∧ holds' seen state r)
      (fun seen r => done seen r ∧ done' seen r) seen ch move := by
  cases move with
  | next | back | done => exact ⟨first, second⟩
  | fail => trivial

/-! ## An open line -/

/-- The fields of a request which are written near the end of the line. -/
structure EndMarks where
  start : Option Nat
  uriEnd : Option Nat
  protocol : OsString

/-- The end marks of a request. -/
def HttpRequest.endMarks (r : HttpRequest) : EndMarks :=
  ⟨r.requestStart, r.uriEnd, r.httpProtocol⟩

/-- No pointer is past the bytes read. -/
structure EndsWithin (base stop : Nat) (marks : EndMarks) : Prop where
  uriEnd : ∀ p, marks.uriEnd = some p → p ≤ stop
  protocol : marks.protocol = .nullString ∨
    ∃ p, marks.protocol.data = .header p ∧ base ≤ p ∧ p ≤ stop

/-- A line has begun and goes on. -/
structure OpenLine (base : Nat) (seen : List UInt8) (marks : EndMarks) : Prop where
  within : EndsWithin base seen.length marks
  base_le : base ≤ seen.length
  unbroken : ∃ start, marks.start = some start ∧ start ≤ seen.length ∧
    ∀ c ∈ slice seen start seen.length, c ≠ cr ∧ c ≠ lf

/-- A line is over. -/
def LineEnded (base : Nat) (seen : List UInt8) (r : HttpRequest) : Prop :=
  ∃ front, OpenLine base front r.endMarks ∧
    (seen = front ++ [lf] ∧ r.requestEnd = none ∨
      seen = front ++ [cr, lf] ∧ r.requestEnd = some front.length)

/-- What a parser state says about the end of the line. -/
def EndInvariant (base : Nat) (seen : List UInt8) (state : LineState) (r : HttpRequest) : Prop :=
  r.requestEnd = none ∧
    match state with
    | .swStart => EndsWithin base seen.length r.endMarks ∧ base ≤ seen.length
    | .swAlmostDone => ∃ front, seen = front ++ [cr] ∧ OpenLine base front r.endMarks
    | _ => OpenLine base seen r.endMarks

section Turn

variable {base : Nat} {seen : List UInt8} {r : HttpRequest} {marks : EndMarks}

theorem EndsWithin.mono {stop stop' : Nat} (within : EndsWithin base stop marks)
    (more : stop ≤ stop') : EndsWithin base stop' marks := by
  refine ⟨fun p here => (within.uriEnd p here).trans more, within.protocol.imp_right ?_⟩
  rintro ⟨p, here, after, before⟩
  exact ⟨p, here, after, before.trans more⟩

theorem OpenLine.byte (line : OpenLine base seen marks) {c : UInt8} (not_cr : c ≠ cr)
    (not_lf : c ≠ lf) : OpenLine base (seen ++ [c]) marks := by
  obtain ⟨start, here, inside, unbroken⟩ := line.unbroken
  have base_le := line.base_le
  refine ⟨line.within.mono (by simp), by simp; omega, start, here, by simp; omega, ?_⟩
  rw [List.length_append, List.length_singleton, slice_concat_last c inside]
  intro d member
  rcases List.mem_append.mp member with old | new
  · exact unbroken d old
  · rw [List.mem_singleton.mp new]
    exact ⟨not_cr, not_lf⟩

/-- The target ends here. -/
theorem OpenLine.uriEnd (line : OpenLine base seen marks) {stop : Nat}
    (inside : stop ≤ seen.length) :
    OpenLine base seen { marks with uriEnd := some stop } :=
  ⟨⟨fun _ here => Option.some.inj here ▸ inside, line.within.protocol⟩, line.base_le,
    line.unbroken⟩

/-- The version begins here. -/
theorem OpenLine.protocol (line : OpenLine base seen marks) (len : Int) :
    OpenLine base seen { marks with protocol := ⟨.header seen.length, len⟩ } :=
  ⟨⟨line.within.uriEnd, Or.inr ⟨seen.length, rfl, line.base_le, le_rfl⟩⟩, line.base_le,
    line.unbroken⟩

/-- The space after an authority ends the target inside the schema. -/
theorem OpenLine.absentPath (line : OpenLine base seen r.endMarks) {stop : Nat}
    (schemaEnd : r.schemaEnd = some stop) (inside : stop + 2 ≤ seen.length) :
    OpenLine base (seen ++ [sp]) r.setUriToSlash.endMarks := by
  have ended : r.setUriToSlash.endMarks = { r.endMarks with uriEnd := some (stop + 2) } := by
    change { r.endMarks with uriEnd := r.schemaEnd.map (· + 2) } = _
    rw [schemaEnd, Option.map_some]
  rw [ended]
  exact (line.uriEnd inside).byte (by decide) (by decide)

private theorem byte_ne_lineEnd : ∀ c, isMethodByte c = true ∨ isLetter c = true ∨
    isDigit c = true ∨ isLiteralMark c = true ∨ isUsual c = true ∨
      ¬ (c < chr '1' ∨ chr '9' < c) → c ≠ cr ∧ c ≠ lf := by
  decide +kernel

/-- One examination of `c` at the end of `seen` keeps the invariant. -/
abbrev KeepsEnd (base : Nat) (seen : List UInt8) (c : UInt8) : LineMove → Prop :=
  Keeps (EndInvariant base) (LineEnded base) seen c

private theorem lineHostEnd_keepsEnd (c : UInt8) (line : OpenLine base seen r.endMarks)
    (none : r.requestEnd = none) (layout : InHost seen r) :
    KeepsEnd base seen c (lineHostEnd seen.length c r) := by
  obtain ⟨last, schema, stop, places, text⟩ := layout
  have schemaEnd : r.schemaEnd = some stop := congrArg Places.schemaEnd places
  have inside := text.start_le
  simp only [lineHostEnd]
  refine iteInduction (fun colon => ?_) fun _ =>
    iteInduction (fun slash => ?_) fun _ =>
      iteInduction (fun space => ?_) fun _ => trivial
  · exact ⟨none, line.byte (by rw [colon]; decide) (by rw [colon]; decide)⟩
  · exact ⟨none, line.byte (by rw [slash]; decide) (by rw [slash]; decide)⟩
  · subst space
    exact ⟨none, line.absentPath schemaEnd (by omega)⟩

private theorem lineHost_keepsEnd (c : UInt8) (line : OpenLine base seen r.endMarks)
    (none : r.requestEnd = none) (layout : InHost seen r) :
    KeepsEnd base seen c (lineHost seen.length c r) := by
  simp only [lineHost]
  refine iteInduction (fun letter => ?_) fun _ => iteInduction (fun other => ?_) fun _ => ?_
  · obtain ⟨not_cr, not_lf⟩ := byte_ne_lineEnd c (Or.inr (Or.inl letter))
    exact ⟨none, line.byte not_cr not_lf⟩
  · have not_end : c ≠ cr ∧ c ≠ lf := by
      rcases other with digit | rfl | rfl
      · exact byte_ne_lineEnd c (Or.inr (Or.inr (Or.inl digit)))
      · decide
      · decide
    exact ⟨none, line.byte not_end.1 not_end.2⟩
  · exact lineHostEnd_keepsEnd c line none layout

private theorem swPort_keepsEnd (b : OsBuf) (c : UInt8) (line : OpenLine base seen r.endMarks)
    (none : r.requestEnd = none) (layout : LayoutInvariant seen .swPort r) :
    KeepsEnd base seen c (lineStep b seen.length c .swPort r) := by
  obtain ⟨last, schema, stop, host, places, -, -, text⟩ := layout
  have schemaEnd : r.schemaEnd = some stop := congrArg Places.schemaEnd places
  have inside := text.start_le
  simp only [lineStep]
  refine iteInduction (fun digit => ?_) fun _ =>
    iteInduction (fun slash => ?_) fun _ => iteInduction (fun space => ?_) fun _ => trivial
  · obtain ⟨not_cr, not_lf⟩ := byte_ne_lineEnd c (Or.inr (Or.inr (Or.inl digit)))
    exact ⟨none, line.byte not_cr not_lf⟩
  · exact ⟨none, line.byte (by rw [slash]; decide) (by rw [slash]; decide)⟩
  · subst space
    exact ⟨none, line.absentPath schemaEnd (by omega)⟩

/-- A byte of a state that neither ends the line nor records a pointer of `EndMarks`. -/
private theorem plain_keepsEnd (b : OsBuf) (c : UInt8) {state : LineState}
    (plain : state = .swMethod ∨ state = .swSpacesBeforeUri ∨ state = .swSchema ∨
      state = .swSchemaSlash ∨ state = .swSchemaSlashSlash ∨ state = .swHostIpLiteral ∨
      state = .swHttpH ∨ state = .swHttpHT ∨ state = .swHttpHTT ∨ state = .swHttpHTTP ∨
      state = .swFirstMajorDigit ∨ state = .swMajorDigit ∨ state = .swFirstMinorDigit)
    (line : OpenLine base seen r.endMarks) (none : r.requestEnd = none) :
    KeepsEnd base seen c (lineStep b seen.length c state r) := by
  have byte : c ≠ cr ∧ c ≠ lf → OpenLine base (seen ++ [c]) r.endMarks :=
    fun not_end => line.byte not_end.1 not_end.2
  rcases plain with rfl | rfl | rfl | rfl | rfl | rfl | rfl | rfl | rfl | rfl | rfl | rfl | rfl
  all_goals
    simp only [lineStep]
    repeat' refine iteInduction (fun _ => ?_) fun _ => ?_
  all_goals first
    | trivial
    | exact ⟨none, byte (by subst_vars; decide)⟩
    | exact ⟨none, byte (byte_ne_lineEnd c (by tauto))⟩

/-- A CR after an open line. -/
theorem OpenLine.carriageReturn (line : OpenLine base seen r.endMarks) (none : r.requestEnd = none)
    {c : UInt8} (ret : c = cr) : EndInvariant base (seen ++ [c]) .swAlmostDone r :=
  ⟨none, seen, by rw [ret], line⟩

/-- A LF after an open line. -/
theorem OpenLine.lineFeed (line : OpenLine base seen r.endMarks) (none : r.requestEnd = none)
    {c : UInt8} (feed : c = lf) : LineEnded base (seen ++ [c]) r :=
  ⟨seen, line, Or.inl ⟨by rw [feed], none⟩⟩

/-- The states which read the target up to its end. -/
private theorem target_keepsEnd (b : OsBuf) (c : UInt8) {state : LineState}
    (reads : state = .swAfterSlashInUri ∨ state = .swCheckUri ∨ state = .swUri)
    (line : OpenLine base seen r.endMarks) (none : r.requestEnd = none) :
    KeepsEnd base seen c (lineStep b seen.length c state r) := by
  have byte : c ≠ cr ∧ c ≠ lf → OpenLine base (seen ++ [c]) r.endMarks :=
    fun not_end => line.byte not_end.1 not_end.2
  have ended : OpenLine base seen (r.setUriEnd seen.length).endMarks := line.uriEnd le_rfl
  have space : c = sp → OpenLine base (seen ++ [c]) (r.setUriEnd seen.length).endMarks := by
    rintro rfl
    exact ended.byte (by decide) (by decide)
  rcases reads with rfl | rfl | rfl
  all_goals
    simp only [lineStep]
    repeat' refine iteInduction (fun _ => ?_) fun _ => ?_
  all_goals first
    | trivial
    | exact ⟨none, space ‹c = sp›⟩
    | exact ended.carriageReturn none ‹c = cr›
    | exact ended.lineFeed none ‹c = lf›
    | exact ⟨none, byte ⟨‹_›, ‹_›⟩⟩
    | exact ⟨none, byte (by subst_vars; decide)⟩
    | exact ⟨none, byte (byte_ne_lineEnd c (by tauto))⟩

/-- The states which read spaces after the target. -/
private theorem spaces_keepsEnd (b : OsBuf) (c : UInt8) {state : LineState}
    (reads : state = .swHostHttp09 ∨ state = .swCheckUriHttp09 ∨ state = .swHttp09)
    (line : OpenLine base seen r.endMarks) (none : r.requestEnd = none) :
    KeepsEnd base seen c (lineStep b seen.length c state r) := by
  have space : c = sp → OpenLine base (seen ++ [c]) r.endMarks := by
    rintro rfl
    exact line.byte (by decide) (by decide)
  have version : c = chr 'H' →
      OpenLine base (seen ++ [c]) (r.setHttpProtocolData seen.length).endMarks := by
    rintro rfl
    exact (line.protocol r.httpProtocol.len).byte (by decide) (by decide)
  have ret : c = cr → EndInvariant base (seen ++ [c]) .swAlmostDone (r.setHttpMinor 9) :=
    fun ret => OpenLine.carriageReturn (r := r.setHttpMinor 9) line none ret
  have feed : c = lf → LineEnded base (seen ++ [c]) (r.setHttpMinor 9) :=
    fun feed => OpenLine.lineFeed (r := r.setHttpMinor 9) line none feed
  rcases reads with rfl | rfl | rfl
  all_goals
    simp only [lineStep]
    repeat' refine iteInduction (fun _ => ?_) fun _ => ?_
  all_goals first
    | exact ⟨none, space ‹c = sp›⟩
    | exact ret ‹c = cr›
    | exact feed ‹c = lf›
    | exact ⟨none, version ‹c = chr 'H'›⟩
    | exact ⟨none, line⟩
    | trivial

/-- The states which may end the line after the version. -/
private theorem version_keepsEnd (b : OsBuf) (c : UInt8) {state : LineState}
    (reads : state = .swMinorDigit ∨ state = .swSpacesAfterDigit)
    (line : OpenLine base seen r.endMarks) (none : r.requestEnd = none) :
    KeepsEnd base seen c (lineStep b seen.length c state r) := by
  have byte : c ≠ cr ∧ c ≠ lf → OpenLine base (seen ++ [c]) r.endMarks :=
    fun not_end => line.byte not_end.1 not_end.2
  rcases reads with rfl | rfl
  all_goals
    simp only [lineStep]
    repeat' refine iteInduction (fun _ => ?_) fun _ => ?_
  all_goals first
    | trivial
    | exact line.carriageReturn none ‹c = cr›
    | exact line.lineFeed none ‹c = lf›
    | exact ⟨none, byte ⟨‹_›, ‹_›⟩⟩
    | exact ⟨none, byte (by subst_vars; decide)⟩

/-- Every turn of the `switch` keeps the invariant. -/
theorem lineStep_keepsEnd (b : OsBuf) (c : UInt8) (state : LineState)
    (layout : LayoutInvariant seen state r) (holds : EndInvariant base seen state r) :
    KeepsEnd base seen c (lineStep b seen.length c state r) := by
  obtain ⟨none, line⟩ := holds
  cases state with
  | swStart =>
      obtain ⟨within, base_le⟩ := line
      have started : EndsWithin base seen.length (r.setRequestStart seen.length).endMarks :=
        ⟨within.uriEnd, within.protocol⟩
      simp only [lineStep]
      refine iteInduction (fun _ => ?_) fun _ => iteInduction (fun _ => trivial) fun letter => ?_
      · have more : seen.length ≤ (seen ++ [c]).length := by simp
        exact ⟨none, started.mono more, base_le.trans more⟩
      · have not_end := byte_ne_lineEnd c (Or.inl (not_not.mp letter))
        have opened : OpenLine base seen (r.setRequestStart seen.length).endMarks :=
          ⟨started, base_le, seen.length, rfl, le_rfl, by simp⟩
        exact ⟨none, opened.byte not_end.1 not_end.2⟩
  | swHostStart =>
      obtain ⟨last, schema, stop, places, text, marks⟩ := layout
      have inHost := inHost_of_marks places text marks
      simp only [lineStep]
      refine iteInduction (fun bracket => ?_) fun _ => ?_
      · exact ⟨none, OpenLine.byte line (by rw [bracket]; decide) (by rw [bracket]; decide)⟩
      · exact lineHost_keepsEnd c line none inHost
  | swHost => exact lineHost_keepsEnd c line none layout
  | swHostEnd => exact lineHostEnd_keepsEnd c line none layout
  | swPort => exact swPort_keepsEnd b c line none layout
  | swAfterSlashInUri | swCheckUri | swUri => exact target_keepsEnd b c (by simp) line none
  | swHostHttp09 | swCheckUriHttp09 | swHttp09 => exact spaces_keepsEnd b c (by simp) line none
  | swMinorDigit | swSpacesAfterDigit => exact version_keepsEnd b c (by simp) line none
  | swAlmostDone =>
      obtain ⟨front, rfl, line⟩ := line
      simp only [lineStep]
      refine iteInduction (fun feed => ?_) fun _ => trivial
      subst feed
      exact ⟨front, line, Or.inr ⟨by simp, by simp [HttpRequest.setRequestEnd]⟩⟩
  | _ => exact plain_keepsEnd b c (by simp) line none

end Turn

/-- The end of a line which one call accepts. -/
theorem lineEnded_of_osOk {b b' : OsBuf} (wf : b.WellFormed) {r : HttpRequest}
    (accepted : httpParseRequestLine .fresh b = (.osOk, r, b')) :
    ∃ front, OpenLine b.pos front r.endMarks ∧ r.requestEnd = some front.length ∧
      (b'.received.take b'.pos = front ++ [lf] ∨ b'.received.take b'.pos = front ++ [cr, lf]) := by
  have base : (b.received.take b.pos).length = b.pos := by
    rw [List.length_take, wf.received_length, min_eq_left wf.pos_le]
  obtain ⟨p, r', rfl, -, inside, rfl, -, front, line, finish⟩ :=
    done_of_osOk wf accepted
      (fun seen state r => LayoutInvariant seen state r ∧ EndInvariant b.pos seen state r)
      (fun seen r => LayoutDone seen r ∧ LineEnded b.pos seen r)
      ⟨rfl, rfl, ⟨fun _ here => (Option.some_ne_none _ here.symm).elim, Or.inl rfl⟩, base.ge⟩
      fun seen ch state r _ holds =>
        (lineStep_keepsLayout b ch state holds.1).and (lineStep_keepsEnd b ch state holds.1 holds.2)
  refine ⟨front, line, ?_, finish.imp And.left And.left⟩
  have length : (b.received.take (p + 1)).length = p + 1 := by
    rw [List.length_take, wf.received_length, min_eq_left inside]
  change some (r'.requestEnd.getD p) = _
  rcases finish with ⟨text, none⟩ | ⟨-, here⟩
  · rw [text, List.length_append, List.length_singleton] at length
    rw [none, Option.getD_none]
    congr 1
    omega
  · rw [here, Option.getD_some]

end Http
end OstrichServer
