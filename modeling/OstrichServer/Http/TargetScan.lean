import OstrichServer.Http.TargetText

/-!
# How the URI states split a target

While `sw_after_slash_in_uri` and `sw_check_uri` read the path, a '?' starts the arguments.  An
escape, a '#', or a '/' or '.' right after a slash takes the automaton to `sw_uri`, where no later
'?' counts.  The invariant of this file says exactly what the pointers and flags of the request
tell about the target bytes in each state.
-/

namespace OstrichServer
namespace Http

/-! ## What the request says about a target -/

/-- The fields of a request which the URI states write besides the two ends of the target. -/
structure UriMarks where
  args : Option Nat
  ext : Option Nat
  complex : Bool
  quoted : Bool

/-- The marks of a request. -/
def HttpRequest.uriMarks (r : HttpRequest) : UriMarks :=
  ⟨r.argsStart, r.uriExt, r.complexUri, r.quotedUri⟩

/-- The marks of a request whose target has not begun. -/
def UriMarks.none : UriMarks := ⟨.none, .none, false, false⟩

/-- A target at `start` which is a watched path so far. -/
structure Watch (start : Nat) (path : List UInt8) (marks : UriMarks) : Prop where
  given : marks.args = none
  complex : marks.complex = false
  quoted : marks.quoted = false
  watched : WatchedPath path
  ext : ExtAt start path marks.ext

/-- A target at `start` whose '?' was seen after a watched path. -/
structure Queried (start : Nat) (path args : List UInt8) (marks : UriMarks) : Prop where
  given : marks.args = some (start + path.length + 1)
  complex : marks.complex = true ↔ chr '#' ∈ args
  quoted : marks.quoted = false
  watched : WatchedPath path
  ext : ExtAt start path marks.ext

/-- A target at `start` in which the byte `c` after a watched path ended the search for a '?'. -/
structure Offended (start : Nat) (path : List UInt8) (c : UInt8) (marks : UriMarks) : Prop where
  given : marks.args = none
  flagged : marks.complex = true ∨ marks.quoted = true
  watched : WatchedPath path
  offence : Offence path c
  ext : ExtAt start path marks.ext

/-- A target at `start` in `sw_uri`. -/
def Left (start : Nat) (target : List UInt8) (marks : UriMarks) : Prop :=
  (∃ path args, target = path ++ chr '?' :: args ∧ Queried start path args marks) ∨
    ∃ path c rest, target = path ++ c :: rest ∧ Offended start path c marks

/-- A target at `start` which has ended. -/
def Split (start : Nat) (target : List UInt8) (marks : UriMarks) : Prop :=
  Watch start target marks ∨ Left start target marks

/-- A watched path in `sw_after_slash_in_uri`. -/
def WatchSlash (start : Nat) (path : List UInt8) (marks : UriMarks) : Prop :=
  Watch start path marks ∧ AfterSlash path

/-- A watched path in `sw_check_uri`. -/
def WatchSegment (start : Nat) (path : List UInt8) (marks : UriMarks) : Prop :=
  Watch start path marks ∧ ¬ AfterSlash path

/-! ## One byte of the target -/

section Byte

variable {start : Nat} {path : List UInt8} {marks : UriMarks}

theorem Watch.root (start : Nat) : Watch start [chr '/'] .none :=
  ⟨rfl, rfl, rfl, .root, ExtAt.slash start []⟩

theorem WatchSlash.root (start : Nat) : WatchSlash start [chr '/'] .none :=
  ⟨Watch.root start, [], 0, rfl⟩

/-- A byte of a segment, other than a '.'. -/
theorem Watch.segment (watch : Watch start path marks) {c : UInt8} (percent : c ≠ chr '%')
    (hash : c ≠ chr '#') (question : c ≠ chr '?') (slash : c ≠ chr '/') (dot : c ≠ chr '.') :
    Watch start (path ++ [c]) marks := by
  refine ⟨watch.given, watch.complex, watch.quoted, watch.watched.concat question ?_,
    watch.ext.concat slash dot⟩
  rintro (escape | number | ⟨-, again | again⟩)
  · exact percent escape
  · exact hash number
  · exact slash again
  · exact dot again

/-- A byte which is no '+' either leaves the slash behind. -/
theorem Watch.byte (watch : Watch start path marks) {c : UInt8} (percent : c ≠ chr '%')
    (hash : c ≠ chr '#') (question : c ≠ chr '?') (slash : c ≠ chr '/') (dot : c ≠ chr '.')
    (plus : c ≠ chr '+') : WatchSegment start (path ++ [c]) marks := by
  refine ⟨watch.segment percent hash question slash dot, ?_⟩
  rw [afterSlash_concat, not_or]
  exact ⟨slash, fun again => plus again.2⟩

theorem WatchSlash.plus (watch : WatchSlash start path marks) :
    WatchSlash start (path ++ [chr '+']) marks :=
  ⟨watch.1.segment (by decide) (by decide) (by decide) (by decide) (by decide),
    afterSlash_concat.mpr (Or.inr ⟨watch.2, rfl⟩)⟩

/-- In a segment a '+' is a byte like any other. -/
theorem WatchSegment.byte (watch : WatchSegment start path marks) {c : UInt8}
    (percent : c ≠ chr '%') (hash : c ≠ chr '#') (question : c ≠ chr '?') (slash : c ≠ chr '/')
    (dot : c ≠ chr '.') : WatchSegment start (path ++ [c]) marks := by
  refine ⟨watch.1.segment percent hash question slash dot, ?_⟩
  rw [afterSlash_concat, not_or]
  exact ⟨slash, fun again => watch.2 again.1⟩

theorem WatchSegment.slash (watch : WatchSegment start path marks) :
    WatchSlash start (path ++ [chr '/']) { marks with ext := none } := by
  refine ⟨⟨watch.1.given, watch.1.complex, watch.1.quoted, watch.1.watched.concat (by decide) ?_,
    ExtAt.slash start path⟩, afterSlash_concat.mpr (Or.inl rfl)⟩
  rintro (escape | number | ⟨slash, -⟩)
  · exact absurd escape (by decide)
  · exact absurd number (by decide)
  · exact watch.2 slash

theorem WatchSegment.dot (watch : WatchSegment start path marks) :
    WatchSegment start (path ++ [chr '.'])
      { marks with ext := some (start + path.length + 1) } := by
  refine ⟨⟨watch.1.given, watch.1.complex, watch.1.quoted, watch.1.watched.concat (by decide) ?_,
    ExtAt.dot start path⟩, ?_⟩
  · rintro (escape | number | ⟨slash, -⟩)
    · exact absurd escape (by decide)
    · exact absurd number (by decide)
    · exact watch.2 slash
  · rw [afterSlash_concat, not_or]
    exact ⟨by decide, fun again => absurd again.2 (by decide)⟩

/-- Spaces before a byte which is not the 'H' of a version. -/
theorem Watch.spaces (watch : Watch start path marks) {count : Nat} (more : 0 < count) :
    WatchSegment start (path ++ List.replicate count sp) marks := by
  obtain ⟨count, rfl⟩ := Nat.exists_eq_add_one.mpr more
  clear more
  induction count with
  | zero => exact watch.byte (by decide) (by decide) (by decide) (by decide) (by decide) (by decide)
  | succ count induction =>
      rw [List.replicate_succ', ← List.append_assoc]
      exact induction.byte (by decide) (by decide) (by decide) (by decide) (by decide)

theorem Watch.question (watch : Watch start path marks) :
    Left start (path ++ [chr '?']) { marks with args := some (start + path.length + 1) } := by
  refine Or.inl ⟨path, [], rfl, rfl, ?_, watch.quoted, watch.watched, watch.ext⟩
  simp [watch.complex]

theorem Watch.offend (watch : Watch start path marks) {c : UInt8} {marks' : UriMarks}
    (offence : Offence path c) (args : marks'.args = marks.args) (ext : marks'.ext = marks.ext)
    (flagged : marks'.complex = true ∨ marks'.quoted = true) :
    Left start (path ++ [c]) marks' :=
  Or.inr ⟨path, c, [], rfl, args.trans watch.given, flagged, watch.watched, offence,
    ext ▸ watch.ext⟩

theorem Left.byte {target : List UInt8} (left : Left start target marks) {c : UInt8}
    (hash : c ≠ chr '#') : Left start (target ++ [c]) marks := by
  rcases left with ⟨path, args, rfl, query⟩ | ⟨path, c', rest, rfl, offended⟩
  · refine Or.inl
      ⟨path, args ++ [c], by simp, query.given, ?_, query.quoted, query.watched, query.ext⟩
    rw [query.complex, List.mem_append, List.mem_singleton]
    exact (or_iff_left hash.symm).symm
  · exact Or.inr ⟨path, c', rest ++ [c], by simp, offended⟩

theorem Left.hash {target : List UInt8} (left : Left start target marks) :
    Left start (target ++ [chr '#']) { marks with complex := true } := by
  rcases left with ⟨path, args, rfl, query⟩ | ⟨path, c', rest, rfl, offended⟩
  · refine Or.inl ⟨path, args ++ [chr '#'], by simp, query.given, ?_, query.quoted, query.watched,
      query.ext⟩
    simp
  · exact Or.inr
      ⟨path, c', rest ++ [chr '#'], by simp, offended.given, Or.inl rfl, offended.watched,
      offended.offence, offended.ext⟩

theorem Left.spaces {target : List UInt8} (left : Left start target marks) (count : Nat) :
    Left start (target ++ List.replicate count sp) marks := by
  induction count with
  | zero => rwa [List.replicate_zero, List.append_nil]
  | succ count induction =>
      rw [List.replicate_succ', ← List.append_assoc]
      exact induction.byte (by decide)

end Byte

/-! ## Targets among the bytes read -/

section Position

variable {kind kind' : Nat → List UInt8 → UriMarks → Prop} {seen : List UInt8} {r r' : HttpRequest}

/-- The target goes on up to the last byte read. -/
def Reading (kind : Nat → List UInt8 → UriMarks → Prop) (seen : List UInt8) (r : HttpRequest) :
    Prop :=
  ∃ start, r.uriStart = some start ∧ start ≤ seen.length ∧
    kind start (seen.drop start) r.uriMarks

/-- The target has ended. -/
def Ended (kind : Nat → List UInt8 → UriMarks → Prop) (seen : List UInt8) (r : HttpRequest) :
    Prop :=
  ∃ start stop, r.uriStart = some start ∧ r.uriEnd = some stop ∧ start ≤ stop ∧
    stop ≤ seen.length ∧ kind start (slice seen start stop) r.uriMarks

/-- The target has ended unless the spaces read after it are a part of it. -/
def Pausing (kind : Nat → List UInt8 → UriMarks → Prop) (seen : List UInt8) (r : HttpRequest) :
    Prop :=
  ∃ start stop, r.uriStart = some start ∧ r.uriEnd = some stop ∧ start ≤ stop ∧
    stop < seen.length ∧ seen.drop stop = List.replicate (seen.length - stop) sp ∧
    kind start (slice seen start stop) r.uriMarks

theorem Reading.next (reading : Reading kind seen r) {c : UInt8} (same : r'.uriStart = r.uriStart)
    (byte : ∀ start target, start + target.length = seen.length → kind start target r.uriMarks →
      kind' start (target ++ [c]) r'.uriMarks) : Reading kind' (seen ++ [c]) r' := by
  obtain ⟨start, here, inside, holds⟩ := reading
  refine ⟨start, same.trans here, by simp; omega, ?_⟩
  rw [List.drop_append_of_le_length inside]
  exact byte start _ (by rw [List.length_drop]; omega) holds

theorem Reading.ended (reading : Reading kind seen r) (c : UInt8) :
    Ended kind (seen ++ [c]) (r.setUriEnd seen.length) := by
  obtain ⟨start, here, inside, holds⟩ := reading
  refine ⟨start, seen.length, here, rfl, inside, by simp, ?_⟩
  rwa [slice_append _ le_rfl, slice_length]

theorem Reading.space (reading : Reading kind seen r) :
    Pausing kind (seen ++ [sp]) (r.setUriEnd seen.length) := by
  obtain ⟨start, here, inside, holds⟩ := reading
  refine ⟨start, seen.length, here, rfl, inside, by simp, by simp, ?_⟩
  rwa [slice_append _ le_rfl, slice_length]

theorem Pausing.space (pausing : Pausing kind seen r) : Pausing kind (seen ++ [sp]) r := by
  obtain ⟨start, stop, here, there, order, more, blank, holds⟩ := pausing
  refine ⟨start, stop, here, there, order, by simp; omega, ?_, ?_⟩
  · rw [List.drop_append_of_le_length more.le, blank, List.length_append, List.length_singleton,
      Nat.succ_sub more.le, List.replicate_succ']
  · rwa [slice_append _ more.le]

theorem Pausing.ended (pausing : Pausing kind seen r) (c : UInt8) : Ended kind (seen ++ [c]) r := by
  obtain ⟨start, stop, here, there, order, more, -, holds⟩ := pausing
  refine ⟨start, stop, here, there, order, by simp; omega, ?_⟩
  rwa [slice_append _ more.le]

/-- The spaces are a part of the target after all. -/
theorem Pausing.back (pausing : Pausing kind seen r)
    (spaces : ∀ start target count, 0 < count → kind start target r.uriMarks →
      kind' start (target ++ List.replicate count sp) r.uriMarks) :
    Reading kind' seen r.setSpaceInUri := by
  obtain ⟨start, stop, here, there, order, more, blank, holds⟩ := pausing
  refine ⟨start, here, by omega, ?_⟩
  have whole : seen.drop start =
      slice seen start stop ++ List.replicate (seen.length - stop) sp := by
    rw [← blank, ← slice_length, ← slice_append_slice seen order more.le, slice_length]
  rw [whole]
  exact spaces start _ _ (by omega) holds

theorem Ended.later (ended : Ended kind seen r) (c : UInt8) : Ended kind (seen ++ [c]) r := by
  obtain ⟨start, stop, here, there, order, inside, holds⟩ := ended
  refine ⟨start, stop, here, there, order, by simp; omega, ?_⟩
  rwa [slice_append _ inside]

theorem Ended.mono (ended : Ended kind seen r)
    (weaker : ∀ start target, kind start target r.uriMarks → kind' start target r.uriMarks) :
    Ended kind' seen r := by
  obtain ⟨start, stop, here, there, order, inside, holds⟩ := ended
  exact ⟨start, stop, here, there, order, inside, weaker _ _ holds⟩

end Position

/-! ## The invariant -/

/-- The slash after the schema has been read. -/
def SchemaSlash (seen : List UInt8) (r : HttpRequest) : Prop :=
  ∃ stop, r.schemaEnd = some stop ∧ stop + 2 ≤ seen.length ∧
    slice seen (stop + 1) (stop + 2) = [chr '/']

/-- What a parser state says about the target bytes among `seen`. -/
def ScanInvariant (seen : List UInt8) (state : LineState) (r : HttpRequest) : Prop :=
  match state with
  | .swStart | .swMethod | .swSpacesBeforeUri | .swSchema => r.uriMarks = .none
  | .swSchemaSlash =>
      r.uriMarks = .none ∧ ∃ stop, r.schemaEnd = some stop ∧ seen.length = stop + 1
  | .swSchemaSlashSlash | .swHostStart | .swHost | .swHostEnd | .swHostIpLiteral | .swPort =>
      r.uriMarks = .none ∧ SchemaSlash seen r
  | .swAfterSlashInUri => Reading WatchSlash seen r
  | .swCheckUri => Reading WatchSegment seen r
  | .swUri => Reading Left seen r
  | .swCheckUriHttp09 => Pausing Watch seen r
  | .swHttp09 => Pausing Left seen r
  | _ => Ended Split seen r

section Turn

variable {seen : List UInt8} {r : HttpRequest}

/-- One examination of `c` at the end of `seen` keeps the invariant. -/
abbrev KeepsScan (seen : List UInt8) (c : UInt8) : LineMove → Prop :=
  Keeps ScanInvariant (Ended Split) seen c

theorem SchemaSlash.later (slash : SchemaSlash seen r) (c : UInt8) :
    SchemaSlash (seen ++ [c]) r := by
  obtain ⟨stop, here, inside, byte⟩ := slash
  exact ⟨stop, here, by simp; omega, by rw [slice_append _ inside, byte]⟩

/-- The first slash of a path. -/
theorem reading_slash (fresh : r.uriMarks = .none) :
    Reading WatchSlash (seen ++ [chr '/']) (r.setUriStart seen.length) := by
  refine ⟨seen.length, rfl, by simp, ?_⟩
  rw [List.drop_left]
  change WatchSlash _ _ r.uriMarks
  rw [fresh]
  exact .root _

/-- The slash of the schema stands for an absent path. -/
theorem SchemaSlash.ended (slash : SchemaSlash seen r) (fresh : r.uriMarks = .none) (c : UInt8) :
    Ended Split (seen ++ [c]) r.setUriToSlash := by
  obtain ⟨stop, here, inside, byte⟩ := slash
  refine ⟨stop + 1, stop + 2, by simp [HttpRequest.setUriToSlash, here],
    by simp [HttpRequest.setUriToSlash, here], by omega, by simp; omega, ?_⟩
  rw [slice_append _ inside, byte]
  change Split _ _ r.uriMarks
  rw [fresh]
  exact Or.inl (.root _)

private theorem usual_ne_marks : ∀ c, isUsual c = true →
    c ≠ sp ∧ c ≠ chr '%' ∧ c ≠ chr '#' ∧ c ≠ chr '/' ∧ c ≠ chr '.' ∧ c ≠ chr '?' ∧ c ≠ chr '+' := by
  decide +kernel

private theorem swAfterSlashInUri_keepsScan (b : OsBuf) (c : UInt8)
    (reading : Reading WatchSlash seen r) :
    KeepsScan seen c (lineStep b seen.length c .swAfterSlashInUri r) := by
  have byte : c ≠ chr '%' → c ≠ chr '#' → c ≠ chr '?' → c ≠ chr '/' → c ≠ chr '.' → c ≠ chr '+' →
      Reading WatchSegment (seen ++ [c]) r := by
    intro percent hash question slash dot plus
    exact reading.next rfl fun start target _ watch =>
      watch.1.byte percent hash question slash dot plus
  have offend : ∀ r' : HttpRequest, r'.uriStart = r.uriStart → r'.argsStart = r.argsStart →
      r'.uriExt = r.uriExt → r'.complexUri = true ∨ r'.quotedUri = true →
      c = chr '%' ∨ c = chr '#' ∨ c = chr '/' ∨ c = chr '.' → Reading Left (seen ++ [c]) r' := by
    intro r' same args ext flagged offence
    refine reading.next same fun start target _ watch => watch.1.offend ?_ args ext flagged
    exact offence.imp_right (Or.imp_right fun again => ⟨watch.2, again⟩)
  simp only [lineStep]
  refine iteInduction (fun is_usual => ?_) fun _ =>
    iteInduction (fun space => ?_) fun not_space =>
      iteInduction (fun ret => ?_) fun _ =>
        iteInduction (fun feed => ?_) fun _ =>
          iteInduction (fun dot => ?_) fun not_dot =>
            iteInduction (fun percent => ?_) fun not_percent =>
              iteInduction (fun slash => ?_) fun not_slash =>
                iteInduction (fun question => ?_) fun not_question =>
                  iteInduction (fun hash => ?_) fun not_hash =>
                    iteInduction (fun plus => ?_) fun not_plus =>
                      iteInduction (fun nul => ?_) fun _ => ?_
  · obtain ⟨-, percent, hash, slash, dot, question, plus⟩ := usual_ne_marks c is_usual
    exact byte percent hash question slash dot plus
  · subst space
    obtain ⟨start, stop, here, there, order, more, blank, watch⟩ := reading.space
    exact ⟨start, stop, here, there, order, more, blank, watch.1⟩
  · exact (reading.ended c).mono fun start target watch => Or.inl watch.1
  · exact (reading.ended c).mono fun start target watch => Or.inl watch.1
  · exact offend _ rfl rfl rfl (Or.inl rfl) (Or.inr (Or.inr (Or.inr dot)))
  · exact offend _ rfl rfl rfl (Or.inr rfl) (Or.inl percent)
  · exact offend _ rfl rfl rfl (Or.inl rfl) (Or.inr (Or.inr (Or.inl slash)))
  · subst question
    refine reading.next rfl fun start target length watch => ?_
    change Left _ _ { r.uriMarks with args := some (seen.length + 1) }
    rw [← length]
    exact watch.1.question
  · exact offend _ rfl rfl rfl (Or.inl rfl) (Or.inr (Or.inl hash))
  · subst plus
    exact reading.next rfl fun start target _ watch => watch.plus
  · trivial
  · exact byte not_percent not_hash not_question not_slash not_dot not_plus

private theorem swCheckUri_keepsScan (b : OsBuf) (c : UInt8)
    (reading : Reading WatchSegment seen r) :
    KeepsScan seen c (lineStep b seen.length c .swCheckUri r) := by
  have byte : c ≠ chr '%' → c ≠ chr '#' → c ≠ chr '?' → c ≠ chr '/' → c ≠ chr '.' →
      Reading WatchSegment (seen ++ [c]) r := by
    intro percent hash question slash dot
    exact reading.next rfl fun start target _ watch => watch.byte percent hash question slash dot
  simp only [lineStep]
  refine iteInduction (fun is_usual => ?_) fun _ =>
    iteInduction (fun slash => ?_) fun not_slash =>
      iteInduction (fun dot => ?_) fun not_dot =>
        iteInduction (fun space => ?_) fun not_space =>
          iteInduction (fun ret => ?_) fun _ =>
            iteInduction (fun feed => ?_) fun _ =>
              iteInduction (fun percent => ?_) fun not_percent =>
                iteInduction (fun question => ?_) fun not_question =>
                  iteInduction (fun hash => ?_) fun not_hash =>
                    iteInduction (fun plus => ?_) fun _ =>
                      iteInduction (fun nul => ?_) fun _ => ?_
  · obtain ⟨-, percent, hash, slash, dot, question, -⟩ := usual_ne_marks c is_usual
    exact byte percent hash question slash dot
  · subst slash
    exact reading.next rfl fun start target _ watch => watch.slash
  · subst dot
    refine reading.next rfl fun start target length watch => ?_
    change WatchSegment _ _ { r.uriMarks with ext := some (seen.length + 1) }
    rw [← length]
    exact watch.dot
  · subst space
    obtain ⟨start, stop, here, there, order, more, blank, watch⟩ := reading.space
    exact ⟨start, stop, here, there, order, more, blank, watch.1⟩
  · exact (reading.ended c).mono fun start target watch => Or.inl watch.1
  · exact (reading.ended c).mono fun start target watch => Or.inl watch.1
  · exact reading.next rfl fun start target _ watch =>
      watch.1.offend (Or.inl percent) rfl rfl (Or.inr rfl)
  · subst question
    refine reading.next rfl fun start target length watch => ?_
    change Left _ _ { r.uriMarks with args := some (seen.length + 1) }
    rw [← length]
    exact watch.1.question
  · exact reading.next rfl fun start target _ watch =>
      watch.1.offend (Or.inr (Or.inl hash)) rfl rfl (Or.inl rfl)
  · exact byte not_percent not_hash not_question not_slash not_dot
  · trivial
  · exact byte not_percent not_hash not_question not_slash not_dot

private theorem swUri_keepsScan (b : OsBuf) (c : UInt8) (reading : Reading Left seen r) :
    KeepsScan seen c (lineStep b seen.length c .swUri r) := by
  have byte : c ≠ chr '#' → Reading Left (seen ++ [c]) r := by
    intro hash
    exact reading.next rfl fun start target _ left => left.byte hash
  simp only [lineStep]
  refine iteInduction (fun is_usual => ?_) fun _ =>
    iteInduction (fun space => ?_) fun not_space =>
      iteInduction (fun ret => ?_) fun _ =>
        iteInduction (fun feed => ?_) fun _ =>
          iteInduction (fun hash => ?_) fun not_hash =>
            iteInduction (fun nul => ?_) fun _ => ?_
  · exact byte (usual_ne_marks c is_usual).2.2.1
  · subst space
    exact reading.space
  · exact (reading.ended c).mono fun start target left => Or.inr left
  · exact (reading.ended c).mono fun start target left => Or.inr left
  · subst hash
    exact reading.next rfl fun start target _ left => left.hash
  · trivial
  · exact byte not_hash

/-- Both look-ahead states. -/
private theorem lookAhead_keepsScan (p : Nat) (c : UInt8) {state resume : LineState}
    {kind : Nat → List UInt8 → UriMarks → Prop} (pausing : Pausing kind seen r)
    (here : ∀ seen, Pausing kind seen r → ScanInvariant seen state r)
    (there : ScanInvariant seen resume r.setSpaceInUri)
    (split : ∀ start target marks, kind start target marks → Split start target marks) :
    KeepsScan seen c
      (if c = sp then LineMove.next state r
      else if c = cr then .next .swAlmostDone (r.setHttpMinor 9)
      else if c = lf then .done (r.setHttpMinor 9)
      else if c = chr 'H' then .next .swHttpH (r.setHttpProtocolData p)
      else .back resume r.setSpaceInUri) := by
  have ended : Ended Split (seen ++ [c]) r :=
    (pausing.ended c).mono fun start target => split start target _
  refine iteInduction (fun space => ?_) fun _ =>
    iteInduction (fun ret => ?_) fun _ =>
      iteInduction (fun feed => ?_) fun _ =>
        iteInduction (fun h => ?_) fun _ => ?_
  · subst space
    exact here _ pausing.space
  · exact ended
  · exact ended
  · exact ended
  · exact there

private theorem lineHostEnd_keepsScan (c : UInt8) (fresh : r.uriMarks = .none)
    (slash : SchemaSlash seen r) : KeepsScan seen c (lineHostEnd seen.length c r) := by
  simp only [lineHostEnd]
  refine iteInduction (fun colon => ?_) fun _ =>
    iteInduction (fun path => ?_) fun _ =>
      iteInduction (fun space => ?_) fun _ => ?_
  · exact ⟨fresh, slash.later c⟩
  · subst path
    exact reading_slash fresh
  · exact slash.ended fresh c
  · trivial

private theorem lineHost_keepsScan (c : UInt8) (fresh : r.uriMarks = .none)
    (slash : SchemaSlash seen r) : KeepsScan seen c (lineHost seen.length c r) := by
  simp only [lineHost]
  refine iteInduction (fun letter => ?_) fun _ => iteInduction (fun other => ?_) fun _ => ?_
  · exact ⟨fresh, slash.later c⟩
  · exact ⟨fresh, slash.later c⟩
  · exact lineHostEnd_keepsScan c fresh slash

/-- Every turn of the `switch` keeps the invariant. -/
theorem lineStep_keepsScan (b : OsBuf) (c : UInt8) (state : LineState)
    (holds : ScanInvariant seen state r) :
    KeepsScan seen c (lineStep b seen.length c state r) := by
  cases state with
  | swAfterSlashInUri => exact swAfterSlashInUri_keepsScan b c holds
  | swCheckUri => exact swCheckUri_keepsScan b c holds
  | swUri => exact swUri_keepsScan b c holds
  | swCheckUriHttp09 =>
      refine lookAhead_keepsScan _ c holds (fun seen pausing => pausing) ?_
        fun start target marks watch => Or.inl watch
      exact holds.back fun start target count more watch => watch.spaces more
  | swHttp09 =>
      refine lookAhead_keepsScan _ c holds (fun seen pausing => pausing) ?_
        fun start target marks left => Or.inr left
      exact holds.back fun start target count _ left => left.spaces count
  | swHostStart =>
      obtain ⟨fresh, slash⟩ := holds
      simp only [lineStep]
      refine iteInduction (fun bracket => ?_) fun _ => ?_
      · exact ⟨fresh, slash.later c⟩
      · exact lineHost_keepsScan c fresh slash
  | swHost => exact lineHost_keepsScan c holds.1 holds.2
  | swHostEnd => exact lineHostEnd_keepsScan c holds.1 holds.2
  | swSpacesBeforeUri =>
      simp only [lineStep]
      refine iteInduction (fun slash => ?_) fun _ =>
        iteInduction (fun letter => ?_) fun _ => iteInduction (fun space => ?_) fun _ => ?_
      · subst slash
        exact reading_slash holds
      · exact holds
      · exact holds
      · trivial
  | swSchema =>
      simp only [lineStep]
      refine iteInduction (fun letter => ?_) fun _ => iteInduction (fun colon => ?_) fun _ => ?_
      · exact holds
      · exact ⟨holds, seen.length, rfl, by simp⟩
      · trivial
  | swSchemaSlash =>
      obtain ⟨fresh, stop, here, length⟩ := holds
      simp only [lineStep]
      refine iteInduction (fun slash => ?_) fun _ => trivial
      subst slash
      refine ⟨fresh, stop, here, by simp [length], ?_⟩
      have last := slice_last seen (chr '/')
      rwa [length] at last
  | swPort =>
      obtain ⟨fresh, slash⟩ := holds
      simp only [lineStep]
      refine iteInduction (fun digit => ?_) fun _ =>
        iteInduction (fun path => ?_) fun _ => iteInduction (fun space => ?_) fun _ => ?_
      · exact ⟨fresh, slash.later c⟩
      · subst path
        exact reading_slash (r := r.setPortEnd seen.length) fresh
      · exact slash.ended (r := r.setPortEnd seen.length) fresh c
      · trivial
  | swStart | swMethod =>
      simp only [lineStep]
      repeat' refine iteInduction (fun _ => ?_) fun _ => ?_
      all_goals first | exact holds | trivial
  | swSchemaSlashSlash | swHostIpLiteral =>
      simp only [lineStep]
      repeat' refine iteInduction (fun _ => ?_) fun _ => ?_
      all_goals first | exact ⟨holds.1, SchemaSlash.later holds.2 c⟩ | trivial
  | _ =>
      -- the target has ended and no later state writes to it
      simp only [lineStep]
      repeat' refine iteInduction (fun _ => ?_) fun _ => ?_
      all_goals first | exact Ended.later holds c | trivial

end Turn

/-- What the pointers and flags of an accepted line say about its target. -/
theorem split_of_osOk {b b' : OsBuf} (wf : b.WellFormed) {r : HttpRequest}
    (accepted : httpParseRequestLine .fresh b = (.osOk, r, b')) :
    ∃ start stop, r.uriStart = some start ∧ r.uriEnd = some stop ∧ start ≤ stop ∧
      stop ≤ b'.pos ∧ stop ≤ b'.received.length ∧
      Split start (slice b'.received start stop) r.uriMarks := by
  obtain ⟨p, r', rfl, -, inside, rfl, start, stop, here, there, order, before, split⟩ :=
    done_of_osOk wf accepted ScanInvariant (Ended Split) rfl
      fun seen ch state r _ holds => lineStep_keepsScan b ch state holds
  rw [List.length_take, wf.received_length, min_eq_left inside] at before
  refine ⟨start, stop, here, there, order, before, ?_, ?_⟩
  · change stop ≤ b.received.length
    rw [wf.received_length]
    exact before.trans inside
  · have parts : b.received = b.received.take (p + 1) ++ b.received.drop (p + 1) :=
      (List.take_append_drop _ _).symm
    change Split start (slice b.received start stop) r'.uriMarks
    rw [parts, slice_append]
    · exact split
    · rwa [List.length_take, wf.received_length, min_eq_left inside]

end Http
end OstrichServer
