import Azugate.Bytes
import Azugate.Chunked
import Mathlib.Data.List.Forall2

/-!
# HTTP messages and their text

`HttpMessage` keeps its headers as lines, in the order of the setter calls that wrote them.
`StringifyHeaders` ends each with CRLF and adds the empty line. The first line is a virtual
function : `HttpResponse` ends its line with CRLF, and `HttpRequest` does not.

`SetAcceptEncoding` joins its list and keeps nothing of it. The headers read back as one line per
setter call exactly when it is not called (`splitCrlf_calls_iff`).
-/

namespace Azugate

/-- `kCrlf`. -/
def kCrlf : Str := [cr, lf]

/-! ## Headers -/

/-- `HttpMessage::StringifyHeaders`, from the lines of `headers_`. -/
def stringifyHeaders (headers : List Str) : Str :=
  headers.flatMap (fun h => h ++ kCrlf) ++ kCrlf

/-- `HttpMessage::SetCookie`. -/
def setCookie (headers : List Str) (key val : Str) : List Str :=
  headers ++ [lit "Set-Cookie:" ++ key ++ lit "=" ++ val]

/-- `HttpMessage::SetKeepAlive`. -/
def setKeepAlive (headers : List Str) (keepAlive : Bool) : List Str :=
  headers ++ [lit "Connection:" ++ if keepAlive then lit "keep-alive" else lit "Close"]

/-- `HttpMessage::SetContentType`. -/
def setContentType (headers : List Str) (contentType : Str) : List Str :=
  headers ++ [lit "Content-Type:" ++ contentType]

/-- `HttpMessage::SetContentLength`. -/
def setContentLength (headers : List Str) (len : ℕ) : List Str :=
  headers ++ [lit "Content-Length:" ++ numeral 10 len]

/-- `HttpMessage::SetToken`. -/
def setToken (headers : List Str) (token : Str) : List Str :=
  headers ++ [lit "Token:" ++ token]

/-- `HttpMessage::SetAllowOrigin`. -/
def setAllowOrigin (headers : List Str) (origin : Str) : List Str :=
  headers ++ [lit "Access-Control-Allow-Origin:" ++ origin]

/-- The loop of the setters that take a list : each item is appended, and a comma after it unless
it is the last. -/
def appendJoined (start : Str) (items : List Str) : Str :=
  items.zipIdx.foldl
    (fun text item =>
      if item.2 ≠ items.length - 1 then text ++ item.1 ++ lit "," else text ++ item.1)
    start

/-- `HttpMessage::SetAllowHeaders`. -/
def setAllowHeaders (headers hdrs : List Str) : List Str :=
  headers ++ [appendJoined (lit "Access-Control-Allow-Headers: ") hdrs]

/-- `HttpMessage::SetAllowMethods`. -/
def setAllowMethods (headers methods : List Str) : List Str :=
  headers ++ [appendJoined (lit "Access-Control-Allow-Methods: ") methods]

/-- `HttpMessage::SetAcceptEncoding`. The joined text is a local variable, and is dropped. -/
def setAcceptEncoding (headers encodingTypes : List Str) : List Str :=
  let _encodings := appendJoined (lit "accept-encoding: ") encodingTypes
  headers

/-- `HttpMessage::SetContentEncoding`. -/
def setContentEncoding (headers : List Str) (encodingType : Str) : List Str :=
  headers ++ [lit "content-encoding: " ++ encodingType]

/-- `HttpMessage::SetTransferEncoding`. -/
def setTransferEncoding (headers : List Str) (value : Str) : List Str :=
  headers ++ [lit "transfer-encoding: " ++ value]

/-! ## Content types -/

/-- `utils::FindFileExtension` : the text after the last `'.'`, if there is any. -/
def findFileExtension (path : Str) : Str :=
  if path.contains 46 then (path.reverse.takeWhile (· != 46)).reverse else []

/-- The cases of `GetContentTypeFromSuffix`, by the extensions whose hashes they name. -/
def contentTypes : List (String × String) :=
  [("json", "application/json"), ("xml", "application/xml"),
    ("iso", "application/octet-stream"), ("exe", "application/octet-stream"),
    ("bin", "application/octet-stream"), ("htm", "text/html"), ("html", "text/html"),
    ("txt", "text/plain"), ("log", "text/plain"), ("ini", "text/plain"), ("cfg", "text/plain"),
    ("png", "image/png"), ("jpg", "image/jpeg"), ("jpeg", "image/jpeg"),
    ("svg", "image/svg+xml"), ("ico", "image/vnd.microsoft.icon"), ("css", "text/css"),
    ("js", "application/javascript")]

/-- `GetContentTypeFromSuffix`. The `switch` is over 32-bit hashes. -/
def getContentTypeFromSuffix (path : Str) : Str :=
  match contentTypes.find? fun (ext, _) => hashConstantString (lit ext) == hashConstantString path
  with
  | some (_, contentType) => lit contentType
  | none => lit "application/octet-stream"

/-! ## Requests -/

/-- `HttpRequest`, with the `headers_` of `HttpMessage`. -/
structure HttpRequest where
  method : Str
  url : Str
  version : Str
  headers : List Str
  deriving DecidableEq, Repr

namespace HttpRequest

/-- `HttpRequest::StringifyFirstLine`. -/
def stringifyFirstLine (r : HttpRequest) : Str :=
  r.method ++ [space] ++ r.url ++ [space] ++ r.version

/-- What `SendHttpHeader` writes of a request. -/
def stringify (r : HttpRequest) : Str :=
  r.stringifyFirstLine ++ stringifyHeaders r.headers

end HttpRequest

/-! ## Responses -/

/-- The cases of `GetMessageFromStatusCode`. -/
def statusMessages : List (UInt16 × String) :=
  [(100, "Continue"), (101, "Switching Protocols"), (200, "OK"), (201, "Created"),
    (202, "Accepted"), (203, "Non-Authoritative Information"), (204, "No Content"),
    (205, "Reset Content"), (206, "Partial Content"), (300, "Multiple Choices"),
    (301, "Moved Permanently"), (302, "Found"), (303, "See Other"), (304, "Not Modified"),
    (305, "Use Proxy"), (307, "Temporary Redirect"), (400, "Bad Request"),
    (401, "Unauthorized"), (402, "Payment Required"), (403, "Forbidden"), (404, "Not Found"),
    (405, "Method Not Allowed"), (406, "Not Acceptable"),
    (407, "Proxy Authentication Required"), (408, "Request Timeout"), (409, "Conflict"),
    (410, "Gone"), (411, "Length Required"), (412, "Precondition Failed"),
    (413, "Payload Too Large"), (414, "URI Too Long"), (415, "Unsupported Media Type"),
    (416, "Range Not Satisfiable"), (417, "Expectation Failed"), (426, "Upgrade Required"),
    (500, "Internal Server Error"), (501, "Not Implemented"), (502, "Bad Gateway"),
    (503, "Service Unavailable"), (504, "Gateway Timeout"),
    (505, "HTTP Version Not Supported")]

/-- `GetMessageFromStatusCode`. -/
def getMessageFromStatusCode (statusCode : UInt16) : Str :=
  lit ((statusMessages.lookup statusCode).getD "Unknown Status")

/-- `HttpResponse`, with the `headers_` of `HttpMessage`. -/
structure HttpResponse where
  statusCode : UInt16
  version : Str := lit "HTTP/1.1"
  headers : List Str := []
  deriving DecidableEq, Repr

/-- `HttpResponse::StringifyFirstLine`. -/
def HttpResponse.stringifyFirstLine (r : HttpResponse) : Str :=
  r.version ++ [space] ++ numeral 10 r.statusCode.toNat ++ [space] ++
    getMessageFromStatusCode r.statusCode ++ kCrlf

/-! ## Messages -/

/-- `HttpMessage` : a message of one of the two classes derived from it. -/
inductive HttpMessage where
  | request (r : HttpRequest)
  | response (r : HttpResponse)
  deriving DecidableEq, Repr

namespace HttpMessage

/-- `HttpMessage::StringifyFirstLine`, a virtual function. -/
def stringifyFirstLine : HttpMessage → Str
  | request r => r.stringifyFirstLine
  | response r => r.stringifyFirstLine

/-- `headers_`. -/
def headers : HttpMessage → List Str
  | request r => r.headers
  | response r => r.headers

/-- The header block of a message. -/
def stringify (msg : HttpMessage) : Str :=
  msg.stringifyFirstLine ++ stringifyHeaders msg.headers

end HttpMessage

/-! ## Lines of the setters -/

/-- The loop joins the items with commas. -/
theorem appendJoined_eq (start : Str) (items : List Str) :
    appendJoined start items = start ++ (lit ",").intercalate items := by
  have hloop : ∀ (rest : List Str) (k : ℕ) (text : Str), k + rest.length = items.length →
      (rest.zipIdx k).foldl
        (fun text item =>
          if item.2 ≠ items.length - 1 then text ++ item.1 ++ lit "," else text ++ item.1) text =
        text ++ (lit ",").intercalate rest := by
    intro rest
    induction rest with
    | nil =>
      intro k text _
      simp
    | cons item rest ih =>
      intro k text hk
      rw [List.length_cons] at hk
      rw [List.zipIdx_cons, List.foldl_cons, ih (k + 1) _ (by omega)]
      cases rest with
      | nil =>
        have hlast : k = items.length - 1 := by
          rw [List.length_nil] at hk
          omega
        rw [if_neg (not_not.2 hlast)]
        simp
      | cons next rest =>
        have hmore : k ≠ items.length - 1 := by
          rw [List.length_cons] at hk
          omega
        rw [if_pos hmore]
        simp [List.intercalate]
  exact hloop items 0 start (Nat.zero_add _)

theorem notMem_intercalate {c : UInt8} {sep : Str} (hsep : c ∉ sep) {items : List Str}
    (hitems : ∀ item ∈ items, c ∉ item) : c ∉ sep.intercalate items := by
  induction items with
  | nil => simp
  | cons item rest ih =>
    obtain ⟨hitem, hrest⟩ := List.forall_mem_cons.1 hitems
    cases rest with
    | nil => simpa using hitem
    | cons next rest =>
      have htail := ih hrest
      simp only [List.intercalate, List.intersperse, List.flatten_cons, List.mem_append] at htail ⊢
      exact not_or.2 ⟨hitem, not_or.2 ⟨hsep, htail⟩⟩

/-- A call of a setter. -/
inductive HeaderCall where
  | setCookie (key val : Str)
  | setKeepAlive (keepAlive : Bool)
  | setContentType (contentType : Str)
  | setContentLength (len : ℕ)
  | setToken (token : Str)
  | setAllowOrigin (origin : Str)
  | setAllowHeaders (hdrs : List Str)
  | setAllowMethods (methods : List Str)
  | setAcceptEncoding (encodingTypes : List Str)
  | setContentEncoding (encodingType : Str)
  | setTransferEncoding (value : Str)
  deriving DecidableEq, Repr

namespace HeaderCall

/-- The call, on the lines of `headers_`. -/
def apply (headers : List Str) : HeaderCall → List Str
  | setCookie key val => Azugate.setCookie headers key val
  | setKeepAlive keepAlive => Azugate.setKeepAlive headers keepAlive
  | setContentType contentType => Azugate.setContentType headers contentType
  | setContentLength len => Azugate.setContentLength headers len
  | setToken token => Azugate.setToken headers token
  | setAllowOrigin origin => Azugate.setAllowOrigin headers origin
  | setAllowHeaders hdrs => Azugate.setAllowHeaders headers hdrs
  | setAllowMethods methods => Azugate.setAllowMethods headers methods
  | setAcceptEncoding encodingTypes => Azugate.setAcceptEncoding headers encodingTypes
  | setContentEncoding encodingType => Azugate.setContentEncoding headers encodingType
  | setTransferEncoding value => Azugate.setTransferEncoding headers value

/-- The texts a call is given. -/
def arguments : HeaderCall → List Str
  | setCookie key val => [key, val]
  | setContentType text | setToken text | setAllowOrigin text | setContentEncoding text
  | setTransferEncoding text => [text]
  | setAllowHeaders texts | setAllowMethods texts | setAcceptEncoding texts => texts
  | setKeepAlive _ | setContentLength _ => []

/-- No argument has a CR or a LF. -/
def OneLine (call : HeaderCall) : Prop :=
  ∀ text ∈ call.arguments, cr ∉ text ∧ lf ∉ text

/-- The field a setter is for. -/
def field : HeaderCall → Str
  | setCookie _ _ => lit "Set-Cookie"
  | setKeepAlive _ => lit "Connection"
  | setContentType _ => lit "Content-Type"
  | setContentLength _ => lit "Content-Length"
  | setToken _ => lit "Token"
  | setAllowOrigin _ => lit "Access-Control-Allow-Origin"
  | setAllowHeaders _ => lit "Access-Control-Allow-Headers"
  | setAllowMethods _ => lit "Access-Control-Allow-Methods"
  | setAcceptEncoding _ => lit "accept-encoding"
  | setContentEncoding _ => lit "content-encoding"
  | setTransferEncoding _ => lit "transfer-encoding"

/-- The value of the field, with the items of a list joined by commas. -/
def value : HeaderCall → Str
  | setCookie key val => key ++ lit "=" ++ val
  | setKeepAlive keepAlive => if keepAlive then lit "keep-alive" else lit "Close"
  | setContentLength len => numeral 10 len
  | setContentType text | setToken text | setAllowOrigin text | setContentEncoding text
  | setTransferEncoding text => text
  | setAllowHeaders texts | setAllowMethods texts | setAcceptEncoding texts =>
    (lit ",").intercalate texts

/-- A line with the field of a call, a colon and its value, with or without a space between. -/
def IsLine (call : HeaderCall) (line : Str) : Prop :=
  line = call.field ++ lit ":" ++ call.value ∨ line = call.field ++ lit ": " ++ call.value

end HeaderCall

/-- The lines of a text between its CRLFs. -/
def splitCrlf : Str → List Str
  | [] => [[]]
  | [c] => [[c]]
  | a :: b :: rest =>
    if a = cr ∧ b = lf then [] :: splitCrlf rest else (splitCrlf (b :: rest)).modifyHead (a :: ·)

theorem splitCrlf_append {line : Str} (hline : cr ∉ line) (rest : Str) :
    splitCrlf (line ++ kCrlf ++ rest) = line :: splitCrlf rest := by
  induction line with
  | nil => rfl
  | cons c line ih =>
    obtain ⟨hc, hline⟩ := not_or.1 (mt List.mem_cons.2 hline)
    have hcons : ∀ s : Str, s ≠ [] →
        splitCrlf (c :: s) = (splitCrlf s).modifyHead (c :: ·) := by
      intro s hs
      obtain ⟨b, s, rfl⟩ := List.exists_cons_of_ne_nil hs
      rw [splitCrlf, if_neg fun h => hc h.1.symm]
    rw [List.cons_append, List.cons_append, hcons _ (by simp [kCrlf]), ih hline]
    rfl

/-- The text of the lines splits into the lines and the empty line. -/
theorem splitCrlf_stringifyHeaders {headers : List Str} (hheaders : ∀ h ∈ headers, cr ∉ h) :
    splitCrlf (stringifyHeaders headers) = headers ++ [[], []] := by
  induction headers with
  | nil => rfl
  | cons h headers ih =>
    obtain ⟨hh, hheaders⟩ := List.forall_mem_cons.1 hheaders
    have hcons : stringifyHeaders (h :: headers) = h ++ kCrlf ++ stringifyHeaders headers := by
      simp [stringifyHeaders]
    rw [hcons, splitCrlf_append hh, ih hheaders]
    rfl

namespace HeaderCall

/-- The lines a call adds. -/
def lines (call : HeaderCall) : List Str :=
  call.apply []

theorem apply_eq (headers : List Str) (call : HeaderCall) :
    call.apply headers = headers ++ call.lines := by
  cases call <;> simp [lines, apply, Azugate.setCookie, Azugate.setKeepAlive,
    Azugate.setContentType, Azugate.setContentLength, Azugate.setToken, Azugate.setAllowOrigin,
    Azugate.setAllowHeaders, Azugate.setAllowMethods, Azugate.setAcceptEncoding,
    Azugate.setContentEncoding, Azugate.setTransferEncoding]

theorem foldl_apply (headers : List Str) (calls : List HeaderCall) :
    calls.foldl apply headers = headers ++ calls.flatMap lines := by
  induction calls generalizing headers with
  | nil => simp
  | cons call calls ih =>
    rw [List.foldl_cons, ih, apply_eq, List.append_assoc, List.flatMap_cons]

/-- A call writes the line of its field, unless it is of `SetAcceptEncoding`, which writes
nothing. -/
theorem lines_eq (call : HeaderCall) :
    (∃ types, call = setAcceptEncoding types ∧ call.lines = []) ∨
    (∀ types, call ≠ setAcceptEncoding types) ∧ ∃ line, call.lines = [line] ∧ call.IsLine line := by
  cases call with
  | setAcceptEncoding types => exact Or.inl ⟨types, rfl, rfl⟩
  | setAllowHeaders texts | setAllowMethods texts =>
    refine Or.inr ⟨by simp, _, rfl, Or.inr ?_⟩
    rw [appendJoined_eq]
    simp [field, value, lit]
  | setContentEncoding text | setTransferEncoding text =>
    refine Or.inr ⟨by simp, _, rfl, Or.inr ?_⟩
    simp [field, value, lit]
  | _ =>
    refine Or.inr ⟨by simp, _, rfl, Or.inl ?_⟩
    simp [field, value, lit]

theorem cr_notMem_value {call : HeaderCall} (hcall : call.OneLine) : cr ∉ call.value := by
  cases call with
  | setCookie key val =>
    obtain ⟨hkey, hval⟩ : (cr ∉ key ∧ lf ∉ key) ∧ cr ∉ val ∧ lf ∉ val := by
      simpa [OneLine, arguments] using hcall
    simp [value, hkey, hval, lit]
    decide
  | setKeepAlive keepAlive => cases keepAlive <;> decide
  | setContentLength len =>
    have hdigit : ∀ d < 10, digitChar d ≠ cr := by decide
    intro h
    obtain ⟨d, hd, hcr⟩ := mem_numeral (by decide) h
    exact absurd hcr.symm (hdigit d hd)
  | setAllowHeaders texts | setAllowMethods texts | setAcceptEncoding texts =>
    exact notMem_intercalate (by decide) fun text htext => (hcall text htext).1
  | _ => exact (hcall _ (List.mem_singleton.2 rfl)).1

theorem cr_notMem_of_isLine {call : HeaderCall} (hcall : call.OneLine) {line : Str}
    (hline : call.IsLine line) : cr ∉ line := by
  have hfield : cr ∉ call.field := by cases call <;> simp only [field] <;> decide
  have hvalue := cr_notMem_value hcall
  have hcolon : cr ∉ lit ":" ∧ cr ∉ lit ": " := by decide
  rcases hline with rfl | rfl
  · simp [hfield, hvalue, hcolon]
  · simp [hfield, hvalue, hcolon]

theorem cr_notMem_flatMap_lines {calls : List HeaderCall} (hcalls : ∀ call ∈ calls, call.OneLine) :
    ∀ line ∈ calls.flatMap lines, cr ∉ line := by
  intro line hline
  obtain ⟨call, hcall, hmem⟩ := List.mem_flatMap.1 hline
  rcases call.lines_eq with ⟨types, -, hnil⟩ | ⟨-, own, hown, hisLine⟩
  · rw [hnil] at hmem
    cases hmem
  · rw [hown, List.mem_singleton] at hmem
    rw [hmem]
    exact cr_notMem_of_isLine (hcalls call hcall) hisLine

theorem length_flatMap_lines_le (calls : List HeaderCall) :
    (calls.flatMap lines).length ≤ calls.length := by
  induction calls with
  | nil => exact Nat.le_refl 0
  | cons call calls ih =>
    have hown : call.lines.length ≤ 1 := by
      rcases call.lines_eq with ⟨types, -, hnil⟩ | ⟨-, own, hown, -⟩
      · simp [hnil]
      · simp [hown]
    rw [List.flatMap_cons, List.length_append, List.length_cons]
    omega

/-- A call of `SetAcceptEncoding` leaves fewer lines than calls. -/
theorem length_flatMap_lines_lt {calls : List HeaderCall} {types : List Str}
    (hmem : setAcceptEncoding types ∈ calls) :
    (calls.flatMap lines).length < calls.length := by
  obtain ⟨before, after, rfl⟩ := List.append_of_mem hmem
  have hbefore := length_flatMap_lines_le before
  have hafter := length_flatMap_lines_le after
  have hnil : (setAcceptEncoding types).lines = [] := rfl
  rw [List.flatMap_append, List.flatMap_cons, hnil, List.nil_append]
  simp only [List.length_append, List.length_cons]
  omega

theorem forall₂_flatMap_lines {calls : List HeaderCall}
    (hcalls : ∀ call ∈ calls, ∀ types, call ≠ setAcceptEncoding types) :
    List.Forall₂ IsLine calls (calls.flatMap lines) := by
  induction calls with
  | nil => exact List.Forall₂.nil
  | cons call calls ih =>
    obtain ⟨hcall, hcalls⟩ := List.forall_mem_cons.1 hcalls
    rcases call.lines_eq with ⟨types, htypes, -⟩ | ⟨-, own, hown, hisLine⟩
    · exact absurd htypes (hcall types)
    · rw [List.flatMap_cons, hown, List.singleton_append]
      exact List.Forall₂.cons hisLine (ih hcalls)

end HeaderCall

/-- The headers of a sequence of setter calls read back as one line per call, in the order of the
calls, exactly when no call is of `SetAcceptEncoding`. -/
theorem splitCrlf_calls_iff (calls : List HeaderCall) (hcalls : ∀ call ∈ calls, call.OneLine) :
    (∃ lines, splitCrlf (stringifyHeaders (calls.foldl HeaderCall.apply [])) =
        lines ++ [[], []] ∧ List.Forall₂ HeaderCall.IsLine calls lines) ↔
      ∀ types, HeaderCall.setAcceptEncoding types ∉ calls := by
  rw [HeaderCall.foldl_apply, List.nil_append,
    splitCrlf_stringifyHeaders (HeaderCall.cr_notMem_flatMap_lines hcalls)]
  constructor
  · rintro ⟨lines, hsplit, hlines⟩ types hmem
    obtain rfl := List.append_cancel_right hsplit
    have hlt := HeaderCall.length_flatMap_lines_lt hmem
    exact absurd hlines.length_eq hlt.ne'
  · intro hnone
    exact ⟨_, rfl, HeaderCall.forall₂_flatMap_lines fun call hcall types h =>
      hnone types (h ▸ hcall)⟩

/-- A response of a local file, with a list for the clients of other origins. -/
theorem splitCrlf_calls_cors :
    ∃ lines, splitCrlf (stringifyHeaders ([HeaderCall.setKeepAlive true,
        .setAllowHeaders [lit "a", lit "b"]].foldl HeaderCall.apply [])) = lines ++ [[], []] ∧
      List.Forall₂ HeaderCall.IsLine
        [.setKeepAlive true, .setAllowHeaders [lit "a", lit "b"]] lines :=
  (splitCrlf_calls_iff _ (by
    simp only [List.forall_mem_cons, HeaderCall.OneLine, HeaderCall.arguments]
    decide)).2 (by simp)

/-- The encodings that are accepted are nowhere in the headers. -/
theorem not_splitCrlf_calls_acceptEncoding :
    stringifyHeaders ([HeaderCall.setAcceptEncoding [lit "gzip"]].foldl HeaderCall.apply []) =
        kCrlf ∧
      ¬ ∃ lines, splitCrlf (stringifyHeaders
          ([HeaderCall.setAcceptEncoding [lit "gzip"]].foldl HeaderCall.apply [])) =
          lines ++ [[], []] ∧
        List.Forall₂ HeaderCall.IsLine [.setAcceptEncoding [lit "gzip"]] lines := by
  refine ⟨rfl, ?_⟩
  rintro ⟨lines, hsplit, hlines⟩
  have hlength := congrArg List.length hsplit
  rw [List.length_append, ← hlines.length_eq] at hlength
  exact absurd hlength (by decide)

end Azugate
