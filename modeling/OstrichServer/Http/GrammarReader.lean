import OstrichServer.Http.Grammar
import OstrichServer.Http.LineReader

/-!
# The parser accepts exactly the grammar

Every parser state is given the language of the bytes that complete a request line from it.  One
lemma for each state shows that its turn of the `switch` takes the quotient of that language, and
the theory of residual languages turns the lemmas into the exact language of the parser.
-/

namespace OstrichServer
namespace Http

open Computability Language StoppingReader

/-! ## Residual languages -/

/-- After the first minor digit. -/
def minorDigits : Language UInt8 := (symbols Digit)∗ * (spaces * lineEnd)

/-- After the first major digit. -/
def majorDigits : Language UInt8 :=
  (symbols Digit)∗ * (byteOf (chr '.') * (symbols Digit * minorDigits))

/-- After "HTTP/". -/
def versionNumber : Language UInt8 := symbols LeadingDigit * majorDigits

/-- After an authority: a path with its tail, or a spaced tail. -/
def afterAuthority : Language UInt8 := byteOf (chr '/') * pathTail + byteOf sp * afterSpace

/-- After the colon of a port. -/
def afterColon : Language UInt8 := (symbols Digit)∗ * afterAuthority

/-- After a host. -/
def afterHost : Language UInt8 := afterAuthority + byteOf (chr ':') * afterColon

/-- Inside a host name. -/
def hostRest : Language UInt8 := (symbols HostByte)∗ * afterHost

/-- Inside an address literal. -/
def literalRest : Language UInt8 := (symbols LiteralByte)∗ * (byteOf (chr ']') * afterHost)

/-- After "://". -/
def afterSchema : Language UInt8 := hostRest + byteOf (chr '[') * literalRest

/-- Inside a schema. -/
def schemaRest : Language UInt8 :=
  (symbols Letter)∗ * (byteOf (chr ':') * (byteOf (chr '/') * (byteOf (chr '/') * afterSchema)))

/-- After a method and one space. -/
def targetRest : Language UInt8 :=
  spaces * (byteOf (chr '/') * pathTail + symbols Letter * schemaRest)

/-- Inside a method. -/
def methodRest : Language UInt8 := (symbols MethodByte)∗ * (byteOf sp * targetRest)

/-- The bytes that complete a request line from a parser state. -/
def residual : LineState → Language UInt8
  | .swStart => (symbols LineBreak)∗ * (symbols MethodByte * methodRest)
  | .swMethod => methodRest
  | .swSpacesBeforeUri => targetRest
  | .swSchema => schemaRest
  | .swSchemaSlash => byteOf (chr '/') * (byteOf (chr '/') * afterSchema)
  | .swSchemaSlashSlash => byteOf (chr '/') * afterSchema
  | .swHostStart => afterSchema
  | .swHost => hostRest
  | .swHostEnd => afterHost
  | .swHostIpLiteral => literalRest
  | .swPort => afterColon
  | .swHostHttp09 => afterSpace
  | .swAfterSlashInUri | .swCheckUri | .swUri => pathTail
  | .swCheckUriHttp09 | .swHttp09 => {word | sp :: word ∈ pathTail}
  | .swHttpH => byteOf (chr 'T') * (byteOf (chr 'T') * (byteOf (chr 'P') *
      (byteOf (chr '/') * versionNumber)))
  | .swHttpHT => byteOf (chr 'T') * (byteOf (chr 'P') * (byteOf (chr '/') * versionNumber))
  | .swHttpHTT => byteOf (chr 'P') * (byteOf (chr '/') * versionNumber)
  | .swHttpHTTP => byteOf (chr '/') * versionNumber
  | .swFirstMajorDigit => versionNumber
  | .swMajorDigit => majorDigits
  | .swFirstMinorDigit => symbols Digit * minorDigits
  | .swMinorDigit => minorDigits
  | .swSpacesAfterDigit => spaces * lineEnd
  | .swAlmostDone => byteOf lf

private theorem port_mul_afterAuthority : port * afterAuthority = afterHost := by
  rw [port, afterHost, afterColon, add_mul, one_mul, mul_assoc]

private theorem host_mul_afterHost : host * afterHost = afterSchema := by
  rw [host, afterSchema, hostRest, literalRest, add_mul, mul_assoc, mul_assoc]

/-- The residual language of the start state is the grammar. -/
theorem residual_swStart : residual .swStart = requestLine := by
  have slash : path * tail = byteOf (chr '/') * pathTail := by rw [path, pathTail, mul_assoc]
  have rest : path * tail + spacedTail = afterAuthority := by
    rw [slash, spacedTail_eq, afterAuthority]
  have absolute : authority * afterAuthority = symbols Letter * schemaRest := by
    simp only [authority, mul_assoc, port_mul_afterAuthority, host_mul_afterHost, schemaRest]
  rw [requestLine, rest, slash, absolute]
  simp only [residual, methodRest, targetRest, mul_assoc]

/-- A version line after its 'H'. -/
theorem h_cons_mem_versionLine {word : List UInt8} :
    chr 'H' :: word ∈ versionLine ↔ word ∈ residual .swHttpH := by
  rw [versionLine_eq, cons_mem_symbols_mul]
  simp only [residual, versionNumber, majorDigits, minorDigits, true_and]

/-! ## One turn of the `switch` -/

/-- A move from `state` on `c` takes the quotient of the residual language by `c`. -/
def LineMove.Derives (state : LineState) (c : UInt8) (word : List UInt8) : LineMove → Prop
  | .next state' _ => c :: word ∈ residual state ↔ word ∈ residual state'
  | .back state' _ => c :: word ∈ residual state ↔ c :: word ∈ residual state'
  | .fail _ _ => c :: word ∉ residual state
  | .done _ => c :: word ∈ residual state ↔ word = []

section Turn

variable (b : OsBuf) (p : Nat) (c : UInt8) (r : HttpRequest) (word : List UInt8)

private theorem methodByte_ne : ∀ c, MethodByte c → c ≠ sp ∧ ¬ LineBreak c := by decide +kernel

private theorem letter_ne : ∀ c, Letter c → c ≠ sp ∧ c ≠ chr '/' ∧ c ≠ chr ':' := by
  decide +kernel

private theorem digit_ne : ∀ c, Digit c →
    c ≠ sp ∧ c ≠ cr ∧ c ≠ lf ∧ c ≠ chr '/' ∧ c ≠ chr '.' := by
  decide +kernel

private theorem leadingDigit_iff : ∀ c, LeadingDigit c ↔ ¬ (c < chr '1' ∨ chr '9' < c) := by
  decide +kernel

private theorem hostByte_ne : ∀ c, HostByte c →
    c ≠ sp ∧ c ≠ chr '/' ∧ c ≠ chr ':' ∧ c ≠ chr '[' := by
  decide +kernel

private theorem literalByte_ne : ∀ c, LiteralByte c → c ≠ chr ']' := by decide +kernel

private theorem derives_swStart : (lineStep b p c .swStart r).Derives .swStart c word := by
  simp only [lineStep]
  refine iteInduction (fun ends => ?_) fun _ =>
    iteInduction (fun bad => ?_) fun good => ?_
  · have not_method : ¬ MethodByte c := fun method => (methodByte_ne c method).2 ends
    simp [LineMove.Derives, residual, LineBreak, not_method, ends]
  · rw [isMethodByte_iff] at bad
    simp_all [LineMove.Derives, residual, LineBreak]
  · rw [not_not, isMethodByte_iff] at good
    simp_all [LineMove.Derives, residual, LineBreak]

private theorem derives_swMethod : (lineStep b p c .swMethod r).Derives .swMethod c word := by
  simp only [lineStep]
  refine iteInduction (fun space => ?_) fun _ =>
    iteInduction (fun bad => ?_) fun good => ?_
  · subst space
    simp +decide [LineMove.Derives, residual, methodRest]
  · rw [isMethodByte_iff] at bad
    simp_all [LineMove.Derives, residual, methodRest]
  · rw [not_not, isMethodByte_iff] at good
    simp_all [LineMove.Derives, residual, methodRest]

private theorem derives_swSpacesBeforeUri :
    (lineStep b p c .swSpacesBeforeUri r).Derives .swSpacesBeforeUri c word := by
  simp only [lineStep]
  refine iteInduction (fun slash => ?_) fun _ =>
    iteInduction (fun letter => ?_) fun not_letter =>
      iteInduction (fun space => ?_) fun _ => ?_
  · subst slash
    simp +decide [LineMove.Derives, residual, targetRest]
  · rw [isLetter_iff] at letter
    simp_all [LineMove.Derives, residual, targetRest, letter_ne c letter]
  · subst space
    simp +decide [LineMove.Derives, residual, targetRest]
  · rw [isLetter_iff] at not_letter
    simp_all [LineMove.Derives, residual, targetRest]

private theorem derives_swSchema : (lineStep b p c .swSchema r).Derives .swSchema c word := by
  simp only [lineStep]
  refine iteInduction (fun letter => ?_) fun not_letter =>
    iteInduction (fun colon => ?_) fun _ => ?_
  · rw [isLetter_iff] at letter
    have ne := letter_ne c letter
    simp_all [LineMove.Derives, residual, schemaRest]
  · subst colon
    simp +decide [LineMove.Derives, residual, schemaRest]
  · rw [isLetter_iff] at not_letter
    simp_all [LineMove.Derives, residual, schemaRest]

/-- A state that goes on with one byte only. -/
private theorem derives_only {state next : LineState} {want : UInt8}
    (same : residual state = byteOf want * residual next) :
    (if c = want then LineMove.next next r else .fail .invalidRequest r).Derives state c word := by
  refine iteInduction (fun hit => ?_) fun miss => ?_
  · simp [LineMove.Derives, same, hit]
  · simp [LineMove.Derives, same, miss]

private theorem derives_lineHostEnd :
    (lineHostEnd p c r).Derives .swHostEnd c word := by
  simp only [lineHostEnd]
  refine iteInduction (fun colon => ?_) fun _ =>
    iteInduction (fun slash => ?_) fun _ =>
      iteInduction (fun space => ?_) fun _ => ?_
  · subst colon
    simp +decide [LineMove.Derives, residual, afterHost, afterAuthority]
  · subst slash
    simp +decide [LineMove.Derives, residual, afterHost, afterAuthority]
  · subst space
    simp +decide [LineMove.Derives, residual, afterHost, afterAuthority]
  · simp_all [LineMove.Derives, residual, afterHost, afterAuthority]

private theorem derives_lineHost : (lineHost p c r).Derives .swHost c word := by
  have mark : HostByte c ↔ isLetter c = true ∨ isDigit c = true ∨ c = chr '.' ∨ c = chr '-' := by
    rw [isLetter_iff, isDigit_iff, HostByte]
  have inside : HostByte c → (LineMove.next .swHost r).Derives .swHost c word := by
    intro host_byte
    have ne := hostByte_ne c host_byte
    simp_all [LineMove.Derives, residual, hostRest, afterHost, afterAuthority]
  simp only [lineHost]
  refine iteInduction (fun letter => ?_) fun not_letter =>
    iteInduction (fun other => ?_) fun not_other => ?_
  · exact inside (mark.mpr (Or.inl letter))
  · exact inside (mark.mpr (Or.inr other))
  · have outside : ¬ HostByte c := fun host_byte => (mark.mp host_byte).elim not_letter not_other
    have same : c :: word ∈ hostRest ↔ c :: word ∈ afterHost := by
      simp [hostRest, outside]
    have derives := derives_lineHostEnd p c r word
    cases moved : lineHostEnd p c r <;> rw [moved] at derives <;>
      simpa only [LineMove.Derives, residual, same] using derives

private theorem derives_swHostStart :
    (lineStep b p c .swHostStart r).Derives .swHostStart c word := by
  simp only [lineStep]
  refine iteInduction (fun bracket => ?_) fun not_bracket => ?_
  · subst bracket
    simp +decide [LineMove.Derives, residual, afterSchema, hostRest, afterHost, afterAuthority]
  · have same : c :: word ∈ afterSchema ↔ c :: word ∈ hostRest := by
      simp_all [afterSchema]
    have derives := derives_lineHost p c (r.setHostStart p) word
    cases moved : lineHost p c (r.setHostStart p) <;> rw [moved] at derives <;>
      simpa only [LineMove.Derives, residual, same] using derives

private theorem derives_swHostIpLiteral :
    (lineStep b p c .swHostIpLiteral r).Derives .swHostIpLiteral c word := by
  have mark := isLiteralMark_iff c
  have inside : LiteralByte c →
      (LineMove.next .swHostIpLiteral r).Derives .swHostIpLiteral c word := by
    intro literal_byte
    have ne := literalByte_ne c literal_byte
    simp_all [LineMove.Derives, residual, literalRest]
  simp only [lineStep]
  refine iteInduction (fun digit => ?_) fun not_digit =>
    iteInduction (fun letter => ?_) fun not_letter =>
      iteInduction (fun bracket => ?_) fun not_bracket =>
        iteInduction (fun literal => ?_) fun not_literal => ?_
  · exact inside (mark.mpr (Or.inl digit))
  · exact inside (mark.mpr (Or.inr (Or.inl letter)))
  · subst bracket
    simp +decide [LineMove.Derives, residual, literalRest]
  · exact inside (mark.mpr (Or.inr (Or.inr literal)))
  · have outside : ¬ LiteralByte c := by
      rw [mark]
      simp [not_digit, not_letter, not_literal]
    simp_all [LineMove.Derives, residual, literalRest]

private theorem derives_swPort : (lineStep b p c .swPort r).Derives .swPort c word := by
  simp only [lineStep]
  refine iteInduction (fun digit => ?_) fun not_digit =>
    iteInduction (fun slash => ?_) fun _ =>
      iteInduction (fun space => ?_) fun _ => ?_
  · rw [isDigit_iff] at digit
    have ne := digit_ne c digit
    simp_all [LineMove.Derives, residual, afterColon, afterAuthority]
  · subst slash
    simp +decide [LineMove.Derives, residual, afterColon, afterAuthority]
  · subst space
    simp +decide [LineMove.Derives, residual, afterColon, afterAuthority]
  · rw [isDigit_iff] at not_digit
    simp_all [LineMove.Derives, residual, afterColon, afterAuthority]

private theorem derives_swHostHttp09 :
    (lineStep b p c .swHostHttp09 r).Derives .swHostHttp09 c word := by
  have not_version : c ≠ chr 'H' → c :: word ∉ versionLine :=
    fun not_h member => not_h (cons_mem_versionLine member)
  simp only [lineStep]
  refine iteInduction (fun space => ?_) fun _ =>
    iteInduction (fun ret => ?_) fun _ =>
      iteInduction (fun feed => ?_) fun _ =>
        iteInduction (fun h => ?_) fun not_h => ?_
  · have := not_version (by rw [space]; decide)
    subst space
    simp_all +decide [LineMove.Derives, residual, cons_mem_afterSpace]
  · have := not_version (by rw [ret]; decide)
    subst ret
    simp_all +decide [LineMove.Derives, residual, cons_mem_afterSpace]
  · have := not_version (by rw [feed]; decide)
    subst feed
    simp_all +decide [LineMove.Derives, residual, cons_mem_afterSpace]
  · have version : chr 'H' :: word ∈ versionLine ↔ word ∈ residual .swHttpH :=
      h_cons_mem_versionLine
    subst h
    simp_all +decide [LineMove.Derives, cons_mem_afterSpace, residual]
  · have := not_version not_h
    simp_all [LineMove.Derives, residual, cons_mem_afterSpace]

/-- The states inside a path, which all have the same residual language. -/
private def InPath (state : LineState) : Prop := residual state = pathTail

private theorem derives_plain {state next : LineState} (here : InPath state) (there : InPath next)
    (not_nul : c ≠ 0) (not_space : c ≠ sp) (not_ret : c ≠ cr) (not_feed : c ≠ lf) :
    (LineMove.next next r).Derives state c word := by
  change c :: word ∈ residual state ↔ word ∈ residual next
  rw [here, there]
  exact plain_cons_mem_pathTail ⟨not_nul, not_ret, not_feed⟩ not_space

private theorem derives_nul {state : LineState} (here : InPath state) (nul : c = 0) :
    (LineMove.fail .invalidRequest r).Derives state c word := by
  change c :: word ∉ residual state
  rw [here, nul]
  exact nul_cons_notMem_pathTail

private theorem derives_ret {state : LineState} (here : InPath state) (ret : c = cr) :
    (LineMove.next .swAlmostDone r).Derives state c word := by
  change c :: word ∈ residual state ↔ word ∈ byteOf lf
  rw [here, ret, break_cons_mem_pathTail (Or.inl rfl)]
  simp +decide

private theorem derives_feed {state : LineState} (here : InPath state) (feed : c = lf) :
    (LineMove.done r).Derives state c word := by
  change c :: word ∈ residual state ↔ word = []
  rw [here, feed, break_cons_mem_pathTail (Or.inr rfl)]
  simp +decide

private theorem usual_plain : ∀ c, isUsual c = true → c ≠ 0 ∧ c ≠ sp ∧ c ≠ cr ∧ c ≠ lf := by
  decide +kernel

private theorem derives_swAfterSlashInUri :
    (lineStep b p c .swAfterSlashInUri r).Derives .swAfterSlashInUri c word := by
  have plain : ∀ r, ∀ next, InPath next → c ≠ 0 → c ≠ sp → c ≠ cr → c ≠ lf →
      (LineMove.next next r).Derives .swAfterSlashInUri c word :=
    fun r next there => derives_plain c r word rfl there
  simp only [lineStep]
  refine iteInduction (fun is_usual => ?_) fun _ =>
    iteInduction (fun space => ?_) fun not_space =>
      iteInduction (fun ret => ?_) fun not_ret =>
        iteInduction (fun feed => ?_) fun not_feed => ?_
  · obtain ⟨not_nul, not_space, not_ret, not_feed⟩ := usual_plain c is_usual
    exact plain _ _ rfl not_nul not_space not_ret not_feed
  · subst space
    exact Iff.rfl
  · exact derives_ret c _ word rfl ret
  · exact derives_feed c _ word rfl feed
  · repeat refine iteInduction (fun mark => plain _ _ rfl (by rw [mark]; decide)
      not_space not_ret not_feed) fun _ => ?_
    refine iteInduction (derives_nul c _ word rfl) fun not_nul => ?_
    exact plain _ _ rfl not_nul not_space not_ret not_feed

private theorem derives_swCheckUri :
    (lineStep b p c .swCheckUri r).Derives .swCheckUri c word := by
  have plain : ∀ r, ∀ next, InPath next → c ≠ 0 → c ≠ sp → c ≠ cr → c ≠ lf →
      (LineMove.next next r).Derives .swCheckUri c word :=
    fun r next there => derives_plain c r word rfl there
  simp only [lineStep]
  refine iteInduction (fun is_usual => ?_) fun _ =>
    iteInduction (fun slash => ?_) fun _ =>
      iteInduction (fun dot => ?_) fun _ =>
        iteInduction (fun space => ?_) fun not_space =>
          iteInduction (fun ret => ?_) fun not_ret =>
            iteInduction (fun feed => ?_) fun not_feed => ?_
  · obtain ⟨not_nul, not_space, not_ret, not_feed⟩ := usual_plain c is_usual
    exact plain _ _ rfl not_nul not_space not_ret not_feed
  · subst slash
    exact plain _ _ rfl (by decide) (by decide) (by decide) (by decide)
  · subst dot
    exact plain _ _ rfl (by decide) (by decide) (by decide) (by decide)
  · subst space
    exact Iff.rfl
  · exact derives_ret c _ word rfl ret
  · exact derives_feed c _ word rfl feed
  · repeat refine iteInduction (fun mark => plain _ _ rfl (by rw [mark]; decide)
      not_space not_ret not_feed) fun _ => ?_
    refine iteInduction (derives_nul c _ word rfl) fun not_nul => ?_
    exact plain _ _ rfl not_nul not_space not_ret not_feed

private theorem derives_swUri : (lineStep b p c .swUri r).Derives .swUri c word := by
  have plain : ∀ r, ∀ next, InPath next → c ≠ 0 → c ≠ sp → c ≠ cr → c ≠ lf →
      (LineMove.next next r).Derives .swUri c word :=
    fun r next there => derives_plain c r word rfl there
  simp only [lineStep]
  refine iteInduction (fun is_usual => ?_) fun _ =>
    iteInduction (fun space => ?_) fun not_space =>
      iteInduction (fun ret => ?_) fun not_ret =>
        iteInduction (fun feed => ?_) fun not_feed =>
          iteInduction (fun hash => ?_) fun _ =>
            iteInduction (derives_nul c _ word rfl) fun not_nul => ?_
  · obtain ⟨not_nul, not_space, not_ret, not_feed⟩ := usual_plain c is_usual
    exact plain _ _ rfl not_nul not_space not_ret not_feed
  · subst space
    exact Iff.rfl
  · exact derives_ret c _ word rfl ret
  · exact derives_feed c _ word rfl feed
  · subst hash
    exact plain _ _ rfl (by decide) (by decide) (by decide) (by decide)
  · exact plain _ _ rfl not_nul not_space not_ret not_feed

/-- Both look-ahead states, which step back into `resume`. -/
private theorem derives_lookAhead {state resume : LineState}
    (here : residual state = {word | sp :: word ∈ pathTail}) (there : InPath resume) :
    (if c = sp then LineMove.next state r
      else if c = cr then .next .swAlmostDone (r.setHttpMinor 9)
      else if c = lf then .done (r.setHttpMinor 9)
      else if c = chr 'H' then .next .swHttpH (r.setHttpProtocolData p)
      else .back resume r.setSpaceInUri).Derives state c word := by
  have member : ∀ word, word ∈ residual state ↔ sp :: word ∈ pathTail := by
    rw [here]
    exact fun _ => Iff.rfl
  refine iteInduction (fun space => ?_) fun _ =>
    iteInduction (fun ret => ?_) fun _ =>
      iteInduction (fun feed => ?_) fun _ =>
        iteInduction (fun h => ?_) fun not_h => ?_
  · change c :: word ∈ residual state ↔ word ∈ residual state
    rw [member, member, space, space_cons_mem_pathTail (by decide)]
  · change c :: word ∈ residual state ↔ word ∈ byteOf lf
    rw [member, ret, space_cons_mem_pathTail (by decide), break_cons_mem_pathTail (Or.inl rfl)]
    simp +decide
  · change c :: word ∈ residual state ↔ word = []
    rw [member, feed, space_cons_mem_pathTail (by decide), break_cons_mem_pathTail (Or.inr rfl)]
    simp +decide
  · change c :: word ∈ residual state ↔ word ∈ residual .swHttpH
    rw [member, h, space_h_mem_pathTail, h_cons_mem_versionLine]
  · change c :: word ∈ residual state ↔ c :: word ∈ residual resume
    rw [member, there, space_cons_mem_pathTail not_h]

private theorem derives_swFirstMajorDigit :
    (lineStep b p c .swFirstMajorDigit r).Derives .swFirstMajorDigit c word := by
  have leading := leadingDigit_iff c
  simp only [lineStep]
  refine iteInduction (fun outside => ?_) fun inside => ?_
  · have not_leading : ¬ LeadingDigit c := fun digit => leading.mp digit outside
    simp [LineMove.Derives, residual, versionNumber, not_leading]
  · simp [LineMove.Derives, residual, versionNumber, leading.mpr inside]

private theorem derives_swMajorDigit :
    (lineStep b p c .swMajorDigit r).Derives .swMajorDigit c word := by
  simp only [lineStep]
  refine iteInduction (fun dot => ?_) fun _ =>
    iteInduction (fun not_digit => ?_) fun digit => ?_
  · subst dot
    simp +decide [LineMove.Derives, residual, majorDigits]
  · rw [isDigit_iff] at not_digit
    simp_all [LineMove.Derives, residual, majorDigits]
  · rw [not_not, isDigit_iff] at digit
    simp_all [LineMove.Derives, residual, majorDigits]

private theorem derives_swFirstMinorDigit :
    (lineStep b p c .swFirstMinorDigit r).Derives .swFirstMinorDigit c word := by
  simp only [lineStep]
  refine iteInduction (fun not_digit => ?_) fun digit => ?_
  · rw [isDigit_iff] at not_digit
    simp [LineMove.Derives, residual, not_digit]
  · rw [not_not, isDigit_iff] at digit
    simp [LineMove.Derives, residual, digit]

private theorem derives_swMinorDigit :
    (lineStep b p c .swMinorDigit r).Derives .swMinorDigit c word := by
  simp only [lineStep]
  refine iteInduction (fun ret => ?_) fun _ =>
    iteInduction (fun feed => ?_) fun _ =>
      iteInduction (fun space => ?_) fun _ =>
        iteInduction (fun not_digit => ?_) fun digit => ?_
  · subst ret
    simp +decide [LineMove.Derives, residual, minorDigits]
  · subst feed
    simp +decide [LineMove.Derives, residual, minorDigits]
  · subst space
    simp +decide [LineMove.Derives, residual, minorDigits]
  · rw [isDigit_iff] at not_digit
    simp_all [LineMove.Derives, residual, minorDigits]
  · rw [not_not, isDigit_iff] at digit
    simp_all [LineMove.Derives, residual, minorDigits]

private theorem derives_swSpacesAfterDigit :
    (lineStep b p c .swSpacesAfterDigit r).Derives .swSpacesAfterDigit c word := by
  simp only [lineStep]
  refine iteInduction (fun space => ?_) fun _ =>
    iteInduction (fun ret => ?_) fun _ =>
      iteInduction (fun feed => ?_) fun _ => ?_
  · subst space
    simp +decide [LineMove.Derives, residual]
  · subst ret
    simp +decide [LineMove.Derives, residual]
  · subst feed
    simp +decide [LineMove.Derives, residual]
  · simp_all [LineMove.Derives, residual]

private theorem derives_swAlmostDone :
    (lineStep b p c .swAlmostDone r).Derives .swAlmostDone c word := by
  simp only [lineStep]
  refine iteInduction (fun feed => ?_) fun not_feed => ?_
  · simp [LineMove.Derives, residual, feed]
  · simp [LineMove.Derives, residual, not_feed]

/-- Every turn of the `switch` takes the quotient of the residual language by its byte. -/
theorem lineStep_derives (state : LineState) : (lineStep b p c state r).Derives state c word := by
  cases state with
  | swStart => exact derives_swStart b p c r word
  | swMethod => exact derives_swMethod b p c r word
  | swSpacesBeforeUri => exact derives_swSpacesBeforeUri b p c r word
  | swSchema => exact derives_swSchema b p c r word
  | swSchemaSlash => exact derives_only c r word rfl
  | swSchemaSlashSlash => exact derives_only c r word rfl
  | swHostStart => exact derives_swHostStart b p c r word
  | swHost => exact derives_lineHost p c r word
  | swHostEnd => exact derives_lineHostEnd p c r word
  | swHostIpLiteral => exact derives_swHostIpLiteral b p c r word
  | swPort => exact derives_swPort b p c r word
  | swHostHttp09 => exact derives_swHostHttp09 b p c r word
  | swAfterSlashInUri => exact derives_swAfterSlashInUri b p c r word
  | swCheckUri => exact derives_swCheckUri b p c r word
  | swCheckUriHttp09 => exact derives_lookAhead p c r word rfl rfl
  | swUri => exact derives_swUri b p c r word
  | swHttp09 => exact derives_lookAhead p c r word rfl rfl
  | swHttpH => exact derives_only c r word rfl
  | swHttpHT => exact derives_only c r word rfl
  | swHttpHTT => exact derives_only c r word rfl
  | swHttpHTTP => exact derives_only c r word rfl
  | swFirstMajorDigit => exact derives_swFirstMajorDigit b p c r word
  | swMajorDigit => exact derives_swMajorDigit b p c r word
  | swFirstMinorDigit => exact derives_swFirstMinorDigit b p c r word
  | swMinorDigit => exact derives_swMinorDigit b p c r word
  | swSpacesAfterDigit => exact derives_swSpacesAfterDigit b p c r word
  | swAlmostDone => exact derives_swAlmostDone b p c r word

end Turn

end Http
end OstrichServer
