import OstrichServer.Http.MethodToken

/-!
# The layout of a request line

Where the schema, the host, the port and the start of the target lie among the bytes of a line:
after the spaces that follow the method stands either a path, or a schema with "://", an authority
without '/' and space, and then a path or a space.
-/

namespace OstrichServer
namespace Http

/-! ## Text -/

/-- The bytes between the schema and the authority. -/
def schemaMarks : List UInt8 := [chr ':', chr '/', chr '/']

/-- A byte of an authority ends neither in a path nor in a space. -/
def isAuthorityByte (c : UInt8) : Bool := c ≠ chr '/' ∧ c ≠ sp

/-- After the method, which ends at `last`, come spaces up to `start`. -/
structure SpacesText (seen : List UInt8) (last start : Nat) : Prop where
  last_lt : last + 1 < start
  start_le : start ≤ seen.length
  blank : ∀ c ∈ slice seen (last + 1) start, c = sp

/-- After the spaces comes a schema between `schema` and `stop`. -/
structure SchemaText (seen : List UInt8) (last schema stop : Nat) : Prop where
  spaces : SpacesText seen last schema
  schema_lt : schema < stop
  stop_le : stop ≤ seen.length
  letters : ∀ c ∈ slice seen schema stop, isLetter c = true

/-- After the schema comes an authority up to `finish`. -/
structure AuthorityText (seen : List UInt8) (last schema stop finish : Nat) : Prop where
  schema : SchemaText seen last schema stop
  marks : slice seen stop (stop + 3) = schemaMarks
  start_le : stop + 3 ≤ finish
  finish_le : finish ≤ seen.length
  authority : ∀ c ∈ slice seen (stop + 3) finish, isAuthorityByte c = true

section Text

variable {seen : List UInt8} {last schema start stop finish : Nat}

theorem SpacesText.later (text : SpacesText seen last start) (later : List UInt8) :
    SpacesText (seen ++ later) last start := by
  have inside := text.start_le
  refine ⟨text.last_lt, by simp; omega, ?_⟩
  rw [slice_append _ inside]
  exact text.blank

theorem SpacesText.space (text : SpacesText seen last seen.length) :
    SpacesText (seen ++ [sp]) last (seen ++ [sp]).length := by
  have less := text.last_lt
  refine ⟨by simp; omega, le_rfl, ?_⟩
  rw [List.length_append, List.length_singleton, slice_concat_last sp (by omega)]
  intro c member
  rcases List.mem_append.mp member with old | new
  · exact text.blank c old
  · exact List.mem_singleton.mp new

theorem SchemaText.later (text : SchemaText seen last schema stop) (later : List UInt8) :
    SchemaText (seen ++ later) last schema stop := by
  have inside := text.stop_le
  refine ⟨text.spaces.later later, text.schema_lt, by simp; omega, ?_⟩
  rw [slice_append _ inside]
  exact text.letters

/-- The first letter of the schema. -/
theorem SpacesText.letter (text : SpacesText seen last seen.length) {c : UInt8}
    (letter : isLetter c = true) :
    SchemaText (seen ++ [c]) last seen.length (seen ++ [c]).length := by
  refine ⟨text.later [c], by simp, le_rfl, ?_⟩
  rw [List.length_append, List.length_singleton, slice_last]
  intro d member
  rwa [List.mem_singleton.mp member]

/-- A further letter of the schema. -/
theorem SchemaText.letter (text : SchemaText seen last schema seen.length) {c : UInt8}
    (letter : isLetter c = true) :
    SchemaText (seen ++ [c]) last schema (seen ++ [c]).length := by
  have less := text.schema_lt
  refine ⟨text.spaces.later [c], by simp; omega, le_rfl, ?_⟩
  rw [List.length_append, List.length_singleton, slice_concat_last c less.le]
  intro d member
  rcases List.mem_append.mp member with old | new
  · exact text.letters d old
  · rwa [List.mem_singleton.mp new]

/-- The three bytes after a schema. -/
theorem SchemaText.length_of_marks (text : SchemaText seen last schema stop)
    (marks : slice seen stop seen.length = schemaMarks) : seen.length = stop + 3 := by
  have length := congrArg List.length marks
  have inside := text.stop_le
  rw [length_slice le_rfl] at length
  simp only [schemaMarks, List.length_cons, List.length_nil] at length
  omega

/-- The authority begins after the two slashes. -/
theorem SchemaText.authority (text : SchemaText seen last schema stop)
    (marks : slice seen stop seen.length = schemaMarks) :
    AuthorityText seen last schema stop seen.length := by
  have three := text.length_of_marks marks
  refine ⟨text, three ▸ marks, three.ge, le_rfl, ?_⟩
  rw [three, slice_self]
  intro c member
  cases member

theorem AuthorityText.later (text : AuthorityText seen last schema stop finish)
    (later : List UInt8) : AuthorityText (seen ++ later) last schema stop finish := by
  have inside := text.finish_le
  have order := text.start_le
  refine ⟨text.schema.later later, ?_, order, by simp; omega, ?_⟩
  · rw [slice_append _ (by omega)]
    exact text.marks
  · rw [slice_append _ inside]
    exact text.authority

/-- A further byte of the authority. -/
theorem AuthorityText.byte (text : AuthorityText seen last schema stop seen.length) {c : UInt8}
    (byte : isAuthorityByte c = true) :
    AuthorityText (seen ++ [c]) last schema stop (seen ++ [c]).length := by
  have order := text.start_le
  refine ⟨text.schema.later [c], ?_, by simp; omega, le_rfl, ?_⟩
  · rw [slice_append _ order]
    exact text.marks
  · rw [List.length_append, List.length_singleton, slice_concat_last c order]
    intro d member
    rcases List.mem_append.mp member with old | new
    · exact text.authority d old
    · rwa [List.mem_singleton.mp new]

end Text

/-! ## Pointers -/

/-- The fields of a request which say where the parts before the target are. -/
structure Places where
  methodEnd : Option Nat
  schemaStart : Option Nat
  schemaEnd : Option Nat
  hostStart : Option Nat
  hostEnd : Option Nat
  portEnd : Option Nat

/-- The places of a request. -/
def HttpRequest.places (r : HttpRequest) : Places :=
  ⟨r.methodEnd, r.schemaStart, r.schemaEnd, r.hostStart, r.hostEnd, r.portEnd⟩

/-- Spaces before a target without a schema. -/
structure OriginAt (seen : List UInt8) (places : Places) (last start : Nat) : Prop where
  places : places = ⟨some last, none, none, none, none, none⟩
  text : SpacesText seen last start

/-- A schema and an authority which ends at `finish`. -/
structure AbsoluteAt (seen : List UInt8) (places : Places) (last schema stop host finish : Nat) :
    Prop where
  places : ∃ port, places = ⟨some last, some schema, some stop, some (stop + 3), some host, port⟩ ∧
    ∀ p, port = some p → host ≤ p ∧ p ≤ finish
  start_le : stop + 3 ≤ host
  host_le : host ≤ finish
  text : AuthorityText seen last schema stop finish

/-- The path of the target has begun. -/
def WithPath (seen : List UInt8) (r : HttpRequest) : Prop :=
  ∃ start, r.uriStart = some start ∧ start < seen.length ∧
    slice seen start (start + 1) = [chr '/'] ∧
    ((∃ last, OriginAt seen r.places last start) ∨
      ∃ last schema stop host, AbsoluteAt seen r.places last schema stop host start)

/-- A space after the authority stands for an absent path. -/
def WithoutPath (seen : List UInt8) (r : HttpRequest) : Prop :=
  ∃ last schema stop host finish, AbsoluteAt seen r.places last schema stop host finish ∧
    finish < seen.length ∧ slice seen finish (finish + 1) = [sp] ∧
    r.uriStart = some (stop + 1) ∧ r.uriEnd = some (stop + 2)

/-- The authority goes on, and no part of it has been recorded but its start. -/
def InHost (seen : List UInt8) (r : HttpRequest) : Prop :=
  ∃ last schema stop, r.places = ⟨some last, some schema, some stop, some (stop + 3), none, none⟩ ∧
    AuthorityText seen last schema stop seen.length

/-- What a parser state says about the parts before the target. -/
def LayoutInvariant (seen : List UInt8) (state : LineState) (r : HttpRequest) : Prop :=
  match state with
  | .swStart => r.places = ⟨none, none, none, none, none, none⟩
  | .swMethod => r.places = ⟨none, none, none, none, none, none⟩ ∧ 0 < seen.length
  | .swSpacesBeforeUri =>
      ∃ last, OriginAt seen r.places last seen.length
  | .swSchema =>
      ∃ last schema, r.places = ⟨some last, some schema, none, none, none, none⟩ ∧
        SchemaText seen last schema seen.length
  | .swSchemaSlash =>
      ∃ last schema stop, r.places = ⟨some last, some schema, some stop, none, none, none⟩ ∧
        SchemaText seen last schema stop ∧ slice seen stop seen.length = [chr ':']
  | .swSchemaSlashSlash =>
      ∃ last schema stop, r.places = ⟨some last, some schema, some stop, none, none, none⟩ ∧
        SchemaText seen last schema stop ∧ slice seen stop seen.length = [chr ':', chr '/']
  | .swHostStart =>
      ∃ last schema stop, r.places = ⟨some last, some schema, some stop, none, none, none⟩ ∧
        SchemaText seen last schema stop ∧ slice seen stop seen.length = schemaMarks
  | .swHost | .swHostEnd | .swHostIpLiteral => InHost seen r
  | .swPort =>
      ∃ last schema stop host,
        r.places = ⟨some last, some schema, some stop, some (stop + 3), some host, none⟩ ∧
          stop + 3 ≤ host ∧ host ≤ seen.length ∧ AuthorityText seen last schema stop seen.length
  | .swHostHttp09 => WithoutPath seen r
  | .swAfterSlashInUri | .swCheckUri | .swUri | .swCheckUriHttp09 | .swHttp09 => WithPath seen r
  | _ => WithPath seen r ∨ WithoutPath seen r

/-- The parts before the target of a line at its end. -/
def LayoutDone (seen : List UInt8) (r : HttpRequest) : Prop := WithPath seen r ∨ WithoutPath seen r

section Turn

variable {seen : List UInt8} {r : HttpRequest}

theorem OriginAt.later {places : Places} {last start : Nat}
    (origin : OriginAt seen places last start) (later : List UInt8) :
    OriginAt (seen ++ later) places last start :=
  ⟨origin.places, origin.text.later later⟩

theorem AbsoluteAt.later {places : Places} {last schema stop host finish : Nat}
    (absolute : AbsoluteAt seen places last schema stop host finish) (later : List UInt8) :
    AbsoluteAt (seen ++ later) places last schema stop host finish :=
  ⟨absolute.places, absolute.start_le, absolute.host_le, absolute.text.later later⟩

theorem WithPath.later (path : WithPath seen r) (later : List UInt8) :
    WithPath (seen ++ later) r := by
  obtain ⟨start, here, inside, slash, place⟩ := path
  refine ⟨start, here, by simp; omega, by rwa [slice_append _ inside], ?_⟩
  rcases place with ⟨last, origin⟩ | ⟨last, schema, stop, host, absolute⟩
  · exact Or.inl ⟨last, origin.later later⟩
  · exact Or.inr ⟨last, schema, stop, host, absolute.later later⟩

theorem WithoutPath.later (absent : WithoutPath seen r) (later : List UInt8) :
    WithoutPath (seen ++ later) r := by
  obtain ⟨last, schema, stop, host, finish, absolute, inside, space, here, there⟩ := absent
  exact ⟨last, schema, stop, host, finish, absolute.later later, by simp; omega,
    by rwa [slice_append _ inside], here, there⟩

theorem LayoutDone.later (layout : LayoutDone seen r) (later : List UInt8) :
    LayoutDone (seen ++ later) r :=
  layout.imp (fun path => path.later later) fun absent => absent.later later

theorem InHost.byte (inHost : InHost seen r) {c : UInt8} (byte : isAuthorityByte c = true) :
    InHost (seen ++ [c]) r := by
  obtain ⟨last, schema, stop, places, text⟩ := inHost
  exact ⟨last, schema, stop, places, text.byte byte⟩

/-- The first slash of a path after an authority. -/
theorem AbsoluteAt.slash {last schema stop host : Nat}
    (absolute : AbsoluteAt seen r.places last schema stop host seen.length) :
    WithPath (seen ++ [chr '/']) (r.setUriStart seen.length) :=
  ⟨seen.length, rfl, by simp, slice_last seen _,
    Or.inr ⟨last, schema, stop, host, absolute.later _⟩⟩

/-- The space after an authority. -/
theorem AbsoluteAt.space {last schema stop host : Nat}
    (absolute : AbsoluteAt seen r.places last schema stop host seen.length) :
    WithoutPath (seen ++ [sp]) r.setUriToSlash := by
  obtain ⟨port, places, -⟩ := absolute.places
  have schemaEnd : r.schemaEnd = some stop := congrArg Places.schemaEnd places
  exact ⟨last, schema, stop, host, seen.length, absolute.later _, by simp, slice_last seen _,
    by simp [HttpRequest.setUriToSlash, schemaEnd], by simp [HttpRequest.setUriToSlash, schemaEnd]⟩

/-- The host begins here. -/
theorem inHost_of_marks {last schema stop : Nat}
    (places : r.places = ⟨some last, some schema, some stop, none, none, none⟩)
    (text : SchemaText seen last schema stop)
    (marks : slice seen stop seen.length = schemaMarks) :
    InHost seen (r.setHostStart seen.length) := by
  refine ⟨last, schema, stop, ?_, text.authority marks⟩
  change { r.places with hostStart := some seen.length } = _
  rw [places, text.length_of_marks marks]

/-- The host ends here. -/
theorem InHost.ends (inHost : InHost seen r) :
    ∃ last schema stop,
      AbsoluteAt seen (r.setHostEnd seen.length).places last schema stop seen.length
        seen.length := by
  obtain ⟨last, schema, stop, places, text⟩ := inHost
  refine ⟨last, schema, stop, ⟨none, ?_, fun p here => by cases here⟩, text.start_le, le_rfl, text⟩
  change { r.places with hostEnd := some seen.length } = _
  rw [places]

private theorem authorityByte_host : ∀ c,
    isLetter c = true ∨ isDigit c = true ∨ c = chr '.' ∨ c = chr '-' ∨ c = chr ':' ∨ c = chr '[' ∨
      c = chr ']' ∨ isLiteralMark c = true → isAuthorityByte c = true := by
  decide +kernel

/-- One examination of `c` at the end of `seen` keeps the invariant. -/
abbrev KeepsLayout (seen : List UInt8) (c : UInt8) : LineMove → Prop :=
  Keeps LayoutInvariant LayoutDone seen c

private theorem lineHostEnd_keepsLayout (c : UInt8) (inHost : InHost seen r) :
    KeepsLayout seen c (lineHostEnd seen.length c r) := by
  obtain ⟨last, schema, stop, absolute⟩ := inHost.ends
  simp only [lineHostEnd]
  refine iteInduction (fun colon => ?_) fun _ =>
    iteInduction (fun slash => ?_) fun _ =>
      iteInduction (fun space => ?_) fun _ => ?_
  · obtain ⟨last, schema, stop, places, text⟩ := inHost
    refine ⟨last, schema, stop, seen.length, ?_, text.start_le, by simp, text.byte ?_⟩
    · change { r.places with hostEnd := some seen.length } = _
      rw [places]
    · rw [colon]
      decide
  · subst slash
    exact absolute.slash
  · subst space
    exact absolute.space
  · trivial

private theorem lineHost_keepsLayout (c : UInt8) (inHost : InHost seen r) :
    KeepsLayout seen c (lineHost seen.length c r) := by
  simp only [lineHost]
  refine iteInduction (fun letter => ?_) fun _ => iteInduction (fun other => ?_) fun _ => ?_
  · exact inHost.byte (authorityByte_host c (Or.inl letter))
  · refine inHost.byte (authorityByte_host c ?_)
    rcases other with digit | dot | dash
    · exact Or.inr (Or.inl digit)
    · exact Or.inr (Or.inr (Or.inl dot))
    · exact Or.inr (Or.inr (Or.inr (Or.inl dash)))
  · exact lineHostEnd_keepsLayout c inHost

private theorem swMethod_keepsLayout (b : OsBuf) (c : UInt8)
    (places : r.places = ⟨none, none, none, none, none, none⟩) (more : 0 < seen.length) :
    KeepsLayout seen c (lineStep b seen.length c .swMethod r) := by
  simp only [lineStep]
  refine iteInduction (fun space => ?_) fun _ =>
    iteInduction (fun _ => trivial) fun letter => ?_
  · subst space
    refine ⟨seen.length - 1, ?_, by simp; omega, le_rfl, ?_⟩
    · change { r.places with methodEnd := some (seen.length - 1) } = _
      rw [places]
    · rw [Nat.sub_add_cancel more, List.length_append, List.length_singleton, slice_last]
      intro d member
      exact List.mem_singleton.mp member
  · exact ⟨places, by simp⟩

private theorem swSpacesBeforeUri_keepsLayout (b : OsBuf) (c : UInt8) {last : Nat}
    (origin : OriginAt seen r.places last seen.length) :
    KeepsLayout seen c (lineStep b seen.length c .swSpacesBeforeUri r) := by
  simp only [lineStep]
  refine iteInduction (fun slash => ?_) fun _ =>
    iteInduction (fun letter => ?_) fun _ => iteInduction (fun space => ?_) fun _ => trivial
  · subst slash
    exact ⟨seen.length, rfl, by simp, slice_last seen _, Or.inl ⟨last, origin.later _⟩⟩
  · refine ⟨last, seen.length, ?_, origin.text.letter letter⟩
    change { r.places with schemaStart := some seen.length } = _
    rw [origin.places]
  · subst space
    exact ⟨last, origin.places, origin.text.space⟩

private theorem swSchema_keepsLayout (b : OsBuf) (c : UInt8) {last schema : Nat}
    (places : r.places = ⟨some last, some schema, none, none, none, none⟩)
    (text : SchemaText seen last schema seen.length) :
    KeepsLayout seen c (lineStep b seen.length c .swSchema r) := by
  simp only [lineStep]
  refine iteInduction (fun letter => ?_) fun _ => iteInduction (fun colon => ?_) fun _ => trivial
  · exact ⟨last, schema, places, text.letter letter⟩
  · refine ⟨last, schema, seen.length, ?_, text.later [c], ?_⟩
    · change { r.places with schemaEnd := some seen.length } = _
      rw [places]
    · rw [List.length_append, List.length_singleton, slice_last, colon]

/-- A byte of "://" after the schema. -/
private theorem marks_concat {last schema stop : Nat} (text : SchemaText seen last schema stop)
    {marks : List UInt8} (so_far : slice seen stop seen.length = marks) (c : UInt8) :
    SchemaText (seen ++ [c]) last schema stop ∧
      slice (seen ++ [c]) stop (seen ++ [c]).length = marks ++ [c] := by
  refine ⟨text.later [c], ?_⟩
  rw [List.length_append, List.length_singleton, slice_concat_last c text.stop_le, so_far]

private theorem swHostStart_keepsLayout (b : OsBuf) (c : UInt8) {last schema stop : Nat}
    (places : r.places = ⟨some last, some schema, some stop, none, none, none⟩)
    (text : SchemaText seen last schema stop)
    (marks : slice seen stop seen.length = schemaMarks) :
    KeepsLayout seen c (lineStep b seen.length c .swHostStart r) := by
  have inHost := inHost_of_marks places text marks
  simp only [lineStep]
  refine iteInduction (fun bracket => ?_) fun _ => ?_
  · refine inHost.byte ?_
    rw [bracket]
    decide
  · exact lineHost_keepsLayout c inHost

private theorem swPort_keepsLayout (b : OsBuf) (c : UInt8) {last schema stop host : Nat}
    (places : r.places = ⟨some last, some schema, some stop, some (stop + 3), some host, none⟩)
    (start_le : stop + 3 ≤ host) (host_le : host ≤ seen.length)
    (text : AuthorityText seen last schema stop seen.length) :
    KeepsLayout seen c (lineStep b seen.length c .swPort r) := by
  have absolute : AbsoluteAt seen (r.setPortEnd seen.length).places last schema stop host
      seen.length := by
    refine ⟨⟨some seen.length, ?_, fun p here => ?_⟩, start_le, host_le, text⟩
    · change { r.places with portEnd := some seen.length } = _
      rw [places]
    · obtain rfl := Option.some.inj here
      exact ⟨host_le, le_rfl⟩
  simp only [lineStep]
  refine iteInduction (fun digit => ?_) fun _ =>
    iteInduction (fun slash => ?_) fun _ => iteInduction (fun space => ?_) fun _ => trivial
  · exact ⟨last, schema, stop, host, places, start_le, by simp; omega,
      text.byte (authorityByte_host c (Or.inr (Or.inl digit)))⟩
  · subst slash
    exact absolute.slash
  · subst space
    exact absolute.space

private theorem swHostIpLiteral_keepsLayout (b : OsBuf) (c : UInt8) (inHost : InHost seen r) :
    KeepsLayout seen c (lineStep b seen.length c .swHostIpLiteral r) := by
  have byte := fun good => inHost.byte (authorityByte_host c good)
  simp only [lineStep]
  refine iteInduction (fun digit => ?_) fun _ => iteInduction (fun letter => ?_) fun _ =>
    iteInduction (fun bracket => ?_) fun _ => iteInduction (fun mark => ?_) fun _ => trivial
  · exact byte (Or.inr (Or.inl digit))
  · exact byte (Or.inl letter)
  · exact byte (by simp [bracket])
  · exact byte (by simp [mark])

/-- Every turn of the `switch` keeps the invariant. -/
theorem lineStep_keepsLayout (b : OsBuf) (c : UInt8) (state : LineState)
    (holds : LayoutInvariant seen state r) :
    KeepsLayout seen c (lineStep b seen.length c state r) := by
  cases state with
  | swStart =>
      simp only [lineStep]
      refine iteInduction (fun _ => ?_) fun _ => iteInduction (fun _ => trivial) fun _ => ?_
      · exact holds
      · exact ⟨holds, by simp⟩
  | swMethod => exact swMethod_keepsLayout b c holds.1 holds.2
  | swSpacesBeforeUri =>
      obtain ⟨last, origin⟩ := holds
      exact swSpacesBeforeUri_keepsLayout b c origin
  | swSchema =>
      obtain ⟨last, schema, places, text⟩ := holds
      exact swSchema_keepsLayout b c places text
  | swSchemaSlash | swSchemaSlashSlash =>
      obtain ⟨last, schema, stop, places, text, marks⟩ := holds
      simp only [lineStep]
      refine iteInduction (fun slash => ?_) fun _ => trivial
      subst slash
      exact ⟨last, schema, stop, places, marks_concat text marks _⟩
  | swHostStart =>
      obtain ⟨last, schema, stop, places, text, marks⟩ := holds
      exact swHostStart_keepsLayout b c places text marks
  | swHost => exact lineHost_keepsLayout c holds
  | swHostEnd => exact lineHostEnd_keepsLayout c holds
  | swHostIpLiteral => exact swHostIpLiteral_keepsLayout b c holds
  | swPort =>
      obtain ⟨last, schema, stop, host, places, start_le, host_le, text⟩ := holds
      exact swPort_keepsLayout b c places start_le host_le text
  | swHostHttp09 =>
      have later : WithoutPath (seen ++ [c]) r := WithoutPath.later holds [c]
      simp only [lineStep]
      repeat' refine iteInduction (fun _ => ?_) fun _ => ?_
      all_goals first | exact later | exact Or.inr later | trivial
  | swAfterSlashInUri | swCheckUri | swUri | swCheckUriHttp09 | swHttp09 =>
      -- these states may move the end of the target, which a path does not mind
      have later : WithPath (seen ++ [c]) r := WithPath.later holds [c]
      simp only [lineStep]
      repeat' refine iteInduction (fun _ => ?_) fun _ => ?_
      all_goals first | exact later | exact Or.inl later | exact holds | trivial
  | _ =>
      have later : LayoutDone (seen ++ [c]) r := LayoutDone.later holds [c]
      simp only [lineStep]
      repeat' refine iteInduction (fun _ => ?_) fun _ => ?_
      all_goals first | exact later | trivial

end Turn

/-- The layout of a line which one call accepts. -/
theorem layout_of_osOk {b b' : OsBuf} (wf : b.WellFormed) {r : HttpRequest}
    (accepted : httpParseRequestLine .fresh b = (.osOk, r, b')) :
    LayoutDone (b'.received.take b'.pos) r := by
  obtain ⟨p, r', rfl, -, -, rfl, layout⟩ :=
    done_of_osOk wf accepted LayoutInvariant LayoutDone rfl
      fun seen ch state r _ holds => lineStep_keepsLayout b ch state holds
  exact layout

end Http
end OstrichServer
