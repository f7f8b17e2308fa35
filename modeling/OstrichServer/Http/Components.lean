import OstrichServer.Http.Slices

/-!
# The components of a plain target

When neither `complex_uri` nor `quoted_uri` is set, `http_process_request_uri` cuts the target into
its path, its arguments and the extension of its last segment.
-/

namespace OstrichServer
namespace Http

section Extension

variable {r : HttpRequest} {b : OsBuf} {start stop pathEnd : Nat}

theorem slice_drop (seen : List UInt8) (start stop count : Nat) :
    (slice seen start stop).drop count = slice seen (start + count) stop := by
  rw [slice, slice, List.drop_drop]

/-- The extension of the path that ends where `http_process_request_uri` says. -/
theorem ExtAt.exten_holds (size : b.last ≤ b.mem.length) (order : start ≤ pathEnd)
    (inside : pathEnd ≤ b.last) (there : r.uriEnd = some stop)
    (pathEnd_eq : pathStop r.argsStart stop = pathEnd) (null : r.exten = .nullString)
    (at_ext : ExtAt start (slice b.received start pathEnd) r.uriExt) :
    (httpProcessRequestUri r).exten.Holds b (extensionOf (slice b.received start pathEnd)) := by
  have received := OsBuf.le_received_length size inside
  cases found : r.uriExt with
  | none =>
      rw [found] at at_ext
      have value : (httpProcessRequestUri r).exten = .nullString := by
        simp [httpProcessRequestUri, found, null]
      rw [value, at_ext.extensionOf_none]
      exact OsString.holds_null b
  | some e =>
      rw [found] at at_ext
      obtain ⟨after, before, suffix⟩ := at_ext.bounds
      rw [length_slice received] at before
      have value : (httpProcessRequestUri r).exten = ⟨.header e, (pathEnd : Int) - e⟩ := by
        rw [← pathEnd_eq]
        cases given : r.argsStart <;>
          simp [httpProcessRequestUri, found, given, ptrDiff, there, pathStop]
      rw [value, ← suffix, slice_drop, Nat.add_sub_cancel' after.le]
      exact OsString.holds_header size (by omega) inside

end Extension

/-- The strings of a request with a plain target. -/
structure PlainComponents (r : HttpRequest) (b : OsBuf) (target : List UInt8) : Prop where
  unparsedUri : r.unparsedUri.Holds b target
  uri : r.uri.Holds b (pathOf target)
  args : r.args.Holds b (argsOf target)
  exten : r.exten.Holds b (extensionOf (pathOf target))

section Split

variable {r : HttpRequest} {b : OsBuf} {start stop : Nat} (size : b.last ≤ b.mem.length)
  (order : start ≤ stop) (inside : stop ≤ b.last) (here : r.uriStart = some start)
  (there : r.uriEnd = some stop)
include size order inside here there

/-- The unparsed uri is the target. -/
theorem unparsedUri_holds :
    (httpProcessRequestUri r).unparsedUri.Holds b (slice b.received start stop) := by
  have value : (httpProcessRequestUri r).unparsedUri = ⟨.header start, (stop : Int) - start⟩ := by
    simp [httpProcessRequestUri, ptrDiff, dataPtr, here, there]
  rw [value]
  exact OsString.holds_header size order inside

variable (args : r.args = .nullString) (exten : r.exten = .nullString)
include args exten

/-- A target without a '?'. -/
theorem Watch.components (watch : Watch start (slice b.received start stop) r.uriMarks) :
    PlainComponents (httpProcessRequestUri r) b (slice b.received start stop) := by
  have given : r.argsStart = none := watch.given
  have complex : r.complexUri = false := watch.complex
  have quoted : r.quotedUri = false := watch.quoted
  obtain ⟨path, none⟩ := pathOf_of_notMem watch.watched.question
  obtain ⟨uri, same⟩ := httpProcessRequestUri_of_no_args here there given
  refine ⟨?_, ?_, ?_, ?_⟩
  · exact unparsedUri_holds size order inside here there
  · rw [uri, path, if_neg (by simp [complex, quoted])]
    exact OsString.holds_header size order inside
  · rw [same, none, args]
    exact OsString.holds_null b
  · rw [path]
    exact watch.ext.exten_holds size order inside there (by rw [given]; rfl) exten

/-- A target with a '?'. -/
theorem Queried.components {path query : List UInt8}
    (target : slice b.received start stop = path ++ chr '?' :: query)
    (queried : Queried start path query r.uriMarks) (complex : r.complexUri = false) :
    PlainComponents (httpProcessRequestUri r) b (slice b.received start stop) := by
  have given : r.argsStart = some (start + path.length + 1) := queried.given
  have hash : chr '#' ∉ query := fun number =>
    absurd (queried.complex.mpr number) (by simp [HttpRequest.uriMarks, complex])
  obtain ⟨path_eq, args_eq⟩ := pathOf_append query queried.watched.question
  obtain ⟨total, front, -⟩ :=
    slice_of_append order (OsBuf.le_received_length size inside) target
  refine ⟨?_, ?_, ?_, ?_⟩
  · exact unparsedUri_holds size order inside here there
  · rw [target, path_eq]
    exact queried.uri_holds size order inside here there target hash
  · rw [target, args_eq]
    exact queried.args_holds size order inside here there args target
  · rw [target, path_eq]
    have at_ext := queried.ext
    rw [← front] at at_ext ⊢
    refine at_ext.exten_holds size (by omega) (by omega) there ?_ exten
    rw [given, pathStop, Nat.add_sub_cancel]

end Split

/-- The components of a line with clear flags which one call accepts. -/
theorem components_of_osOk {b b' : OsBuf} (wf : b.WellFormed) {r : HttpRequest}
    (accepted : httpParseRequestLine .fresh b = (.osOk, r, b')) (complex : r.complexUri = false)
    (quoted : r.quotedUri = false) :
    ∃ start stop, r.uriStart = some start ∧ r.uriEnd = some stop ∧
      PlainComponents (processedRequest r b') b' (slice b'.received start stop) := by
  obtain ⟨start, stop, here, there, order, -, inside, split⟩ := split_of_osOk wf accepted
  obtain ⟨args, exten⟩ := null_strings_of_osOk wf accepted
  obtain ⟨wf', -, -⟩ := buffer_of_osOk wf accepted
  rw [wf'.received_length] at inside
  have size : b'.last ≤ b'.mem.length := wf'.size ▸ wf'.last_le
  refine ⟨start, stop, here, there, ?_⟩
  rcases split with watch | ⟨path, query, target, queried⟩ | ⟨path, c, rest, target, offended⟩
  · exact Watch.components (r := recordRequestLine r b') size order inside here there args exten
      watch
  · exact Queried.components (r := recordRequestLine r b') size order inside here there args exten
      target queried complex
  · rcases offended.flagged with raised | raised
    · exact absurd (complex.symm.trans raised) (by decide)
    · exact absurd (quoted.symm.trans raised) (by decide)

/-- When an accepted line has both flags clear, `unparsed_uri`, `uri`, `args` and `exten` are the
target, its path, its arguments and the extension of its path; the uri of a schema and an authority
without a path is "/". -/
theorem plain_target_components (b b' : OsBuf) (chunks : List (List UInt8)) (r : HttpRequest)
    (wf : b.WellFormed) (room : chunks.flatten.length ≤ b.end - b.last)
    (accepted : resumeRequestLine .fresh b chunks = (.osOk, r, b'))
    (complex : r.complexUri = false) (quoted : r.quotedUri = false) :
    ∃ start stop, r.uriStart = some start ∧ r.uriEnd = some stop ∧
      PlainComponents (processedRequest r b') b' (slice b'.received start stop) ∧
      (AbsoluteWithoutPath (slice b'.received b.pos b'.pos) →
        (processedRequest r b').uri.Holds b' [chr '/']) := by
  obtain ⟨more, fits, whole⟩ := resumeRequestLine_osOk wf room accepted
  obtain ⟨start, stop, here, there, components⟩ :=
    components_of_osOk (wf.append fits) whole complex quoted
  obtain ⟨first, last, target, targetStop, finish, line⟩ :=
    recordedLine_of_osOk (wf.append fits) whole
  refine ⟨start, stop, here, there, components, fun absent => ?_⟩
  obtain ⟨schemaStop, -, -, -, slash⟩ := line.absent absent
  obtain rfl := Option.some.inj (here.symm.trans line.uriStart)
  obtain rfl := Option.some.inj (there.symm.trans line.uriEnd)
  have uri := components.uri
  rw [slash] at uri
  exact uri

theorem plain_target_components_queryLine : ∃ start stop,
    queryRequest.1.uriStart = some start ∧ queryRequest.1.uriEnd = some stop ∧
      PlainComponents (processedRequest queryRequest.1 queryRequest.2) queryRequest.2
        (slice queryRequest.2.received start stop) := by
  have wf := OsBuf.holding_wellFormed queryLine
  have complex : queryRequest.1.complexUri = false := by
    rw [queryRequest, httpParseRequestLine_eq wf]
    decide +kernel
  have quoted : queryRequest.1.quotedUri = false := by
    rw [queryRequest, httpParseRequestLine_eq wf]
    decide +kernel
  obtain ⟨start, stop, here, there, components, -⟩ :=
    plain_target_components (.holding queryLine) _ [] _ wf (by simp) queryLine_accepted complex
      quoted
  exact ⟨start, stop, here, there, components⟩

end Http
end OstrichServer
