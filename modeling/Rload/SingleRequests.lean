import Rload.AccessLog
import Rload.RequestRoundTrip
import Rload.Targets

/-!
# Each request is a single request

The request of a run without a replay has the path of its URL as it stands there, the requests
of an access log have the words of its lines, and a request with headers or a body is checked
first. Where no space and no line break can get into the path, a server reads the one request.
-/

namespace Rload
open TextScanning HttpRequests

theorem forall_break {p : Char → Prop} (hspace : p ' ') (hcr : p '\r') (hlf : p '\n') :
    ∀ c ∈ [' ', '\r', '\n'], p c := by
  rw [List.forall_mem_cons, List.forall_mem_cons, List.forall_mem_singleton]
  exact ⟨hspace, hcr, hlf⟩

/-- A host without white space. -/
def Target.HostIsWord (t : Target) : Prop := ∀ c ∈ [' ', '\r', '\n'], c ∉ t.hostHeader

instance (t : Target) : Decidable t.HostIsWord :=
  List.decidableBAll (fun c => c ∉ t.hostHeader) [' ', '\r', '\n']

theorem Target.HostIsWord.isLine {t : Target} (h : t.HostIsWord) : t.HostIsLine :=
  ⟨h '\r' (by decide), h '\n' (by decide)⟩

/-- What a server is to read. -/
def plainRequest (t : Target) (method : Method) (path : List Char) : Request where
  method := encodeUtf8 method.asStr
  target := encodeUtf8 path
  fields := [⟨encodeUtf8 "Host".toList, trimBlank (encodeUtf8 t.hostHeader)⟩,
    ⟨encodeUtf8 "Connection".toList, encodeUtf8 "keep-alive".toList⟩]
  body := []

/-- A path that is one word. -/
def IsWord (path : List Char) : Prop := path ≠ [] ∧ ∀ c ∈ [' ', '\r', '\n'], c ∉ path

theorem IsWord.encodeUtf8 {path : List Char} (h : IsWord path) :
    encodeUtf8 path ≠ [] ∧ ∀ b ∈ [(13 : UInt8), 10, 32], b ∉ encodeUtf8 path := by
  refine ⟨encodeUtf8_ne_nil h.1, ?_⟩
  have hbyte : ∀ b ∈ [(13 : UInt8), 10, 32], ∃ c ∈ [' ', '\r', '\n'],
      b.toNat < 128 ∧ c.val.toNat = b.toNat := by
    rw [List.forall_mem_cons, List.forall_mem_cons, List.forall_mem_singleton]
    exact ⟨⟨'\r', by decide⟩, ⟨'\n', by decide⟩, ⟨' ', by decide⟩⟩
  intro b hb
  obtain ⟨c, hc, hlt, heq⟩ := hbyte b hb
  exact not_mem_encodeUtf8 hlt heq (h.2 c hc)

theorem mem_encodeUtf8 {cs : List Char} {c : Char} (hc : c ∈ cs) {b : UInt8}
    (hb : String.utf8EncodeChar c = [b]) : b ∈ encodeUtf8 cs := by
  refine List.mem_flatMap.mpr ⟨c, hc, ?_⟩
  rw [hb]
  exact List.mem_singleton_self b

theorem fields_plainRequest (t : Target) (ht : t.HostIsLine) (method : Method) (path : List Char) :
    [hostLine t ht, connectionLine].map FieldLine.field = (plainRequest t method path).fields := by
  have hhost : (hostLine t ht).field =
      ⟨encodeUtf8 "Host".toList, trimBlank (encodeUtf8 t.hostHeader)⟩ := by
    simp only [FieldLine.field, hostLine, trimBlank_cons]
  have hconnection : connectionLine.field =
      ⟨encodeUtf8 "Connection".toList, encodeUtf8 "keep-alive".toList⟩ := by decide
  rw [List.map_cons, List.map_cons, List.map_nil, hhost, hconnection, plainRequest]

def plainMessage (t : Target) (ht : t.HostIsLine) (method : Method) (path : List Char)
    (hpath : IsWord path) : Message where
  method := encodeUtf8 method.asStr
  target := encodeUtf8 path
  lines := [hostLine t ht, connectionLine]
  body := []
  method_token := by cases method <;> decide
  target_ne_nil := hpath.encodeUtf8.1
  target_word := hpath.encodeUtf8.2
  one_host := by
    rw [fields_plainRequest t ht method path]
    rfl
  length_eq := by
    rw [fields_plainRequest t ht method path]
    rfl

theorem bytes_plainMessage (t : Target) (ht : t.HostIsLine) (method : Method) (path : List Char)
    (hpath : IsWord path) :
    (plainMessage t ht method path hpath).bytes = t.requestFor method path := by
  have hspace : encodeUtf8 " ".toList = [32] := by decide
  have hhost : encodeUtf8 " HTTP/1.1\r\nHost: ".toList =
      32 :: version ++ lineEnd ++ encodeUtf8 "Host".toList ++ [58, 32] := by decide
  have hconnection : encodeUtf8 "\r\nConnection: keep-alive\r\n\r\n".toList =
      lineEnd ++ connectionLine.bytes ++ lineEnd ++ lineEnd := by decide
  simp only [Message.bytes, Message.head, Message.requestLine, plainMessage, List.flatMap_cons,
    List.flatMap_nil, List.append_nil]
  simp only [Target.requestFor, encodeUtf8_append, hspace, hhost, hconnection, FieldLine.bytes,
    hostLine, List.append_assoc, List.cons_append, List.nil_append]

/-- A plain request is read as itself exactly if its path is one word. -/
theorem isOneRequest_requestFor {t : Target} (ht : t.HostIsLine) (method : Method)
    {path : List Char} (hne : path ≠ []) :
    IsOneRequest (plainRequest t method path) (t.requestFor method path) ↔ IsWord path := by
  constructor
  · intro h
    refine ⟨hne, fun c hc hmem => ?_⟩
    have hbyte : ∀ c ∈ [' ', '\r', '\n'], ∃ b ∈ [(13 : UInt8), 10, 32],
        String.utf8EncodeChar c = [b] :=
      forall_break ⟨32, by decide⟩ ⟨13, by decide⟩ ⟨10, by decide⟩
    obtain ⟨b, hb, henc⟩ := hbyte c hc
    exact h.target_word b hb (mem_encodeUtf8 hmem henc)
  · intro hpath
    have hone := (plainMessage t ht method path hpath).isOneRequest
    rw [bytes_plainMessage] at hone
    have hrequest : (plainMessage t ht method path hpath).request = plainRequest t method path := by
      rw [Message.request, plainMessage, fields_plainRequest t ht method path]
      rfl
    rwa [hrequest] at hone

/-- The URL has no space and no line break before its fragment. -/
def HasNoBreak (url : List Char) : Prop :=
  ∀ c ∈ [' ', '\r', '\n'], c ∉ url.takeWhile (· ≠ '#')

instance (url : List Char) : Decidable (HasNoBreak url) :=
  List.decidableBAll (fun c => c ∉ url.takeWhile (· ≠ '#')) [' ', '\r', '\n']

theorem isWord_requestPath {suffix : List Char} (h : ∀ c ∈ suffix.head?, isBoundary c = true) :
    requestPath suffix ≠ [] ∧ (IsWord (requestPath suffix) ↔ HasNoBreak suffix) := by
  have hslash : ∀ c ∈ [' ', '\r', '\n'], c ∉ ['/'] :=
    forall_break (by decide) (by decide) (by decide)
  have hpath : requestPath suffix = suffix.takeWhile (· ≠ '#') ∧ suffix.head? = some '/' ∨
      requestPath suffix = '/' :: suffix.takeWhile (· ≠ '#') := by
    rw [requestPath, splitOnce_fst]
    cases suffix with
    | nil => exact Or.inr rfl
    | cons c suffix =>
      have hc := h c rfl
      rw [isBoundary, Bool.or_eq_true, Bool.or_eq_true, decide_eq_true_eq, decide_eq_true_eq,
        decide_eq_true_eq] at hc
      rcases hc with (rfl | rfl) | rfl
      · refine Or.inl ⟨?_, rfl⟩
        rw [List.takeWhile_cons_of_pos (by decide)]
        rfl
      · refine Or.inr ?_
        rw [List.takeWhile_cons_of_pos (by decide)]
        rfl
      · refine Or.inr ?_
        rw [List.takeWhile_cons_of_neg (by decide)]
  rcases hpath with ⟨hpath, hhead⟩ | hpath
  · have hne : requestPath suffix ≠ [] := by
      cases suffix with
      | nil => cases hhead
      | cons c suffix =>
        cases hhead
        rw [hpath, List.takeWhile_cons_of_pos (by decide)]
        exact List.cons_ne_nil _ _
    refine ⟨hne, ?_⟩
    rw [IsWord, HasNoBreak, hpath]
    rw [hpath] at hne
    exact and_iff_right hne
  · have hne : requestPath suffix ≠ [] := by
      rw [hpath]
      exact List.cons_ne_nil _ _
    refine ⟨hne, (and_iff_right hne).trans ?_⟩
    rw [HasNoBreak, hpath]
    constructor
    · exact fun hword c hc hmem => hword c hc (List.mem_cons_of_mem _ hmem)
    · intro hword c hc hmem
      rcases List.mem_cons.mp hmem with rfl | hmem
      · exact hslash _ hc List.mem_cons_self
      · exact hword c hc hmem

theorem isWord_path {validServerName : List Char → Bool} {url : List Char} {t : Target}
    (h : Target.parse validServerName url = .ok t) (ht : t.HostIsWord) :
    t.path ≠ [] ∧ (IsWord t.path ↔ HasNoBreak url) := by
  obtain ⟨name, hname, suffix, rfl, -, hhost, hsuffix, hpath⟩ := Target.parse_eq_ok h
  have hscheme : ∀ name ∈ ["http://".toList, "https://".toList],
      '#' ∉ name ∧ ∀ c ∈ [' ', '\r', '\n'], c ∉ name := by
    rw [List.forall_mem_cons, List.forall_mem_singleton]
    exact ⟨⟨by decide, forall_break (by decide) (by decide) (by decide)⟩,
      ⟨by decide, forall_break (by decide) (by decide) (by decide)⟩⟩
  obtain ⟨hnot, hword⟩ := hscheme name hname
  have hall : ∀ c ∈ name ++ t.hostHeader, decide (c ≠ '#') = true := by
    intro c hc
    rw [decide_eq_true_eq]
    rintro rfl
    rcases List.mem_append.mp hc with hc | hc
    · exact hnot hc
    · exact absurd (hhost _ hc) (by decide)
  have htake : (name ++ t.hostHeader ++ suffix).takeWhile (· ≠ '#') =
      name ++ t.hostHeader ++ suffix.takeWhile (· ≠ '#') := List.takeWhile_append_of_pos hall
  obtain ⟨hne, hiff⟩ := isWord_requestPath hsuffix
  rw [hpath]
  refine ⟨hne, hiff.trans ?_⟩
  rw [HasNoBreak, HasNoBreak, htake]
  constructor
  · intro h c hc hmem
    rcases List.mem_append.mp hmem with hmem | hmem
    · rcases List.mem_append.mp hmem with hmem | hmem
      · exact hword c hc hmem
      · exact ht c hc hmem
    · exact h c hc hmem
  · exact fun h c hc hmem => h c hc (List.mem_append_right _ hmem)

/-- A request of a log line is encoded like one without headers and a body. -/
theorem bytes_logRequest {overflowChecks : Bool} {line : List Char} {lineNumber : ℕ}
    {r : ReplayRequest}
    (h : AccessLog.parseLine overflowChecks line lineNumber = .ok (.request r)) (t : Target) :
    t.replayRequest r = t.requestFor r.method r.path ∧ IsWord r.path := by
  obtain ⟨hmethod, hheaders, hbody, hne, hword⟩ := AccessLog.parseLine_request h
  constructor
  · have hbreak : encodeUtf8 "\r\nConnection: keep-alive\r\n\r\n".toList =
        encodeUtf8 "\r\n".toList ++ encodeUtf8 "Connection: keep-alive\r\n\r\n".toList := by
      decide
    rw [Target.replayRequest, Target.requestFor, hheaders, hbody, if_pos hmethod]
    simp only [encodeUtf8_append, hbreak, List.flatMap_nil, List.append_nil, List.append_assoc]
  · have hspace : ∀ c ∈ [' ', '\r', '\n'], isWhitespace c = true :=
      forall_break rfl rfl rfl
    refine ⟨hne, fun c hc hmem => ?_⟩
    have hnot := hword c hmem
    rw [hspace c hc] at hnot
    cases hnot

/-- The request of the command line, with its headers and its body. -/
def Target.singleRequest (t : Target) (method : Method) (headers : List (List Char × List Char))
    (body : Option (List UInt8)) : ReplayRequest :=
  .new method t.path headers (body.getD []) body.isSome none

def Target.encodedSingleRequest (t : Target) (method : Method)
    (headers : List (List Char × List Char)) (body : Option (List UInt8)) :
    Except RequestFault EncodedRequest := do
  let request := t.singleRequest method headers body
  validateRequest request
  .ok (t.encodedReplayRequest request)

theorem isOneRequest_single {t : Target} (ht : t.HostIsLine) {method : Method}
    {headers : List (List Char × List Char)} {body : Option (List UInt8)} {entry : EncodedRequest}
    (h : t.encodedSingleRequest method headers body = .ok entry) :
    IsOneRequest (received t (t.singleRequest method headers body)) entry.bytes := by
  obtain ⟨valid, hvalid, h⟩ := ok_of_bind h
  cases h
  have hbody : (t.singleRequest method headers body).body ≠ [] →
      (t.singleRequest method headers body).bodyPresent = true := by
    intro hne
    cases body with
    | none => cases headers <;> exact absurd rfl hne
    | some bytes => simp [Target.singleRequest, ReplayRequest.new, ReplayRequest.bodyPresent]
  have hsound := ReplayRequest.isValid_of_validate hvalid
  have hone := (replayMessage t ht _ hsound hbody).isOneRequest
  rw [bytes_replayMessage] at hone
  have hrequest : (replayMessage t ht _ hsound hbody).request =
      received t (t.singleRequest method headers body) := by
    rw [Message.request, replayMessage, fields_fieldLines]
    rfl
  rwa [hrequest] at hone

/-- The request of a run without a replay is one request exactly if its URL has no space and no
line break before the fragment. Requests of the command line with headers or a body, and those of
an access log, are single requests whatever their text. -/
theorem single_requests_iff {validServerName : List Char → Bool} {url : List Char} {t : Target}
    (hparse : Target.parse validServerName url = .ok t) (ht : t.HostIsWord) :
    (∀ method, IsOneRequest (plainRequest t method t.path) (t.encodedDefaultRequest method).bytes ↔
      HasNoBreak url) ∧
    (∀ method headers body entry, t.encodedSingleRequest method headers body = .ok entry →
      IsOneRequest (received t (t.singleRequest method headers body)) entry.bytes) ∧
    ∀ overflowChecks line lineNumber r,
      AccessLog.parseLine overflowChecks line lineNumber = .ok (.request r) →
        IsOneRequest (plainRequest t r.method r.path) (t.encodedReplayRequest r).bytes := by
  refine ⟨fun method => ?_, fun method headers body entry => isOneRequest_single ht.isLine, ?_⟩
  · obtain ⟨hne, hword⟩ := isWord_path hparse ht
    exact (isOneRequest_requestFor ht.isLine method hne).trans hword
  · intro overflowChecks line lineNumber r hline
    obtain ⟨hbytes, hword⟩ := bytes_logRequest hline t
    have hentry : (t.encodedReplayRequest r).bytes = t.requestFor r.method r.path := hbytes
    rw [hentry]
    exact (isOneRequest_requestFor ht.isLine r.method hword.1).mpr hword

theorem single_requests_iff_sample :
    Target.parse (fun _ => false) "http://a/".toList = .ok plainTarget ∧
      IsOneRequest (plainRequest plainTarget .get ['/'])
        (plainTarget.encodedDefaultRequest .get).bytes := by
  have hparse : Target.parse (fun _ => false) "http://a/".toList = .ok plainTarget := by
    decide +kernel
  have hone := (single_requests_iff hparse (by decide)).1 .get
  exact ⟨hparse, hone.mpr (by decide)⟩

/-- A URL whose path has a request line, a header and the start of a second request. -/
def splitUrl : List Char := "http://a/ HTTP/1.1\r\nHost: a\r\n\r\nGET /b".toList

/-- The URL makes two requests of one. -/
theorem split_url_two_requests :
    ∃ t, Target.parse (fun _ => false) splitUrl = .ok t ∧ t.HostIsWord ∧
      parseRequests (t.encodedDefaultRequest .get).bytes =
        some [⟨encodeUtf8 "GET".toList, encodeUtf8 ['/'],
            [⟨encodeUtf8 "Host".toList, encodeUtf8 ['a']⟩], []⟩,
          plainRequest t .get "/b".toList] ∧
      ¬ IsOneRequest (plainRequest t .get t.path) (t.encodedDefaultRequest .get).bytes := by
  let t : Target := ⟨"a:80".toList, ['a'], splitUrl.drop 8, none⟩
  have hread : parseRequests (t.encodedDefaultRequest .get).bytes =
      some [⟨encodeUtf8 "GET".toList, encodeUtf8 ['/'],
          [⟨encodeUtf8 "Host".toList, encodeUtf8 ['a']⟩], []⟩,
        plainRequest t .get "/b".toList] := by decide +kernel
  refine ⟨t, by decide +kernel, by decide, hread, fun hone => ?_⟩
  have hlength := congrArg (Option.map List.length) (hread.symm.trans hone.read)
  cases hlength

end Rload
