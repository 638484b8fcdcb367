import Sphere.Lib.BinarySearch
import Sphere.Lib.Numeral
import Sphere.Lib.Search

/-! The HTTP message parser and serializer of `6.http/lib/message.cpp`. A
`std::string_view` is the list of bytes it still holds. Every step that would
leave its view is undefined behaviour in C++ and is the stop `undefined` here, so
that staying inside the views is a statement about `parse` and not a convention. -/

namespace Sphere.Http

open Lib

abbrev Bytes := List UInt8

-- A quantifier over the bytes of a view is decided along the view, not over all 256 bytes.
instance decidableEach (b : Bytes) (p : UInt8 → Prop) [DecidablePred p] :
    Decidable (∀ c ∈ b, p c) :=
  List.decidableBAll p b

instance decidableFirst (b : Option UInt8) (p : UInt8 → Prop) [DecidablePred p] :
    Decidable (∀ c ∈ b, p c) :=
  Option.decidableForallMem b

/-- An ASCII literal of the source. -/
def lit (s : String) : Bytes := s.toList.map fun c => c.toNat.toUInt8

def SP : UInt8 := 32
def TAB : UInt8 := 9
def CR : UInt8 := 13
def LF : UInt8 := 10
def CRLF : Bytes := [CR, LF]

/-- How a parse ends early: one of the two exceptions with its text, a step out
of a view, or a loop that runs past its bound. -/
inductive Stop
  | expectingData (what : Bytes)
  | incorrectData (what : Bytes)
  | undefined
  | diverges
  deriving DecidableEq, Repr

abbrev Parse := Except Stop

structure Header where
  name : Bytes
  value : Bytes
  deriving DecidableEq, Repr

/-! Views. -/

def removePrefix (n : ℕ) (sv : Bytes) : Parse Bytes :=
  if n ≤ sv.length then .ok (sv.drop n) else .error .undefined

def removeSuffix (n : ℕ) (sv : Bytes) : Parse Bytes :=
  if n ≤ sv.length then .ok (sv.take (sv.length - n)) else .error .undefined

/-- `std::string(sv.begin(), sv.begin() + cur)`, where `none` is `npos`. -/
def rangeTo (cur : Option ℕ) (sv : Bytes) : Parse Bytes :=
  match cur with
  | some n => if n ≤ sv.length then .ok (sv.take n) else .error .undefined
  | none => .error .undefined

def isSpace (c : UInt8) : Bool := c = SP || c = TAB

def leftStrip : Bytes → Bytes
  | [] => []
  | c :: sv => if isSpace c then leftStrip sv else c :: sv

/-- One of the characters at which a token ends. -/
def endsToken (c : UInt8) : Bool := c = SP || c = CR

def readToken (sv : Bytes) : Parse (Bytes × Bytes) := do
  let sv := leftStrip sv
  let pos := sv.findIdx? endsToken
  let result := sv.take (pos.getD sv.length)
  let sv ← removePrefix (pos.getD sv.length) sv
  return (result, sv)

/-! Tables. The array of methods has room for ten, so it ends in an empty view. -/

def METHODS : List Bytes :=
  [lit "CONNECT", lit "DELETE", lit "GET",
   lit "HEAD", lit "OPTIONS", lit "PATCH",
   lit "POST", lit "PUT", lit "TRACE", lit ""]

def VERSIONS : List Bytes := [lit "0.9", lit "1.0", lit "1.1"]

def REQUEST_HEADER_NAMES : List Bytes :=
  [lit "A-IM", lit "Accept", lit "Accept-Charset", lit "Accept-Control-Request-Headers",
   lit "Accept-Control-Request-Method", lit "Accept-DateTime", lit "Accept-Encoding",
   lit "Accept-Language", lit "Authorization", lit "Cache-Control", lit "Connection",
   lit "Content-Encoding", lit "Content-Length", lit "Content-MD5", lit "Content-Type",
   lit "Cookie", lit "DNT", lit "Date", lit "Expect", lit "Forwarded", lit "From",
   lit "Front-End-Https", lit "HTTP2-Settings", lit "Host", lit "If-Match",
   lit "If-Modified-Since", lit "If-None-Match", lit "If-Unmodified-Since", lit "IfRange",
   lit "Max-Forward", lit "Origin", lit "Pragma", lit "Proxy-Authorization",
   lit "Proxy-Connection", lit "Range", lit "Referer", lit "Save-Data", lit "TE", lit "Trailer",
   lit "Transfer-Encoding", lit "Upgrade", lit "Upgrade-Insecure-Requests", lit "User-Agent",
   lit "Via", lit "Warning"]

def RESPONCE_HEADER_NAMES : List Bytes :=
  [lit "Accept-Patch", lit "Accept-Ranges", lit "Access-Control-Allow-Headers",
   lit "Access-Control-Allow-Methods", lit "Access-Control-Allow-Origin",
   lit "Access-Control-AllowCredentials", lit "Access-Control-Expose-Headers",
   lit "Access-Control-Max-Age", lit "Age", lit "Allow", lit "Alt-Svc", lit "Cache-Control",
   lit "Connection", lit "Content-Disposition", lit "Content-Encoding", lit "Content-Language",
   lit "Content-Length", lit "Content-Locationg", lit "Content-MD5", lit "Content-Range",
   lit "Content-Security-Policy", lit "Content-Type", lit "Date", lit "Delta-Base", lit "ETag",
   lit "Expires", lit "IM", lit "Last-Modified", lit "Link", lit "Location", lit "P3P",
   lit "Pragma", lit "Proxy-Authenticate", lit "Public-Key-Pins", lit "Refresh",
   lit "Retry-After", lit "Server", lit "Set-Cookie", lit "Status",
   lit "Strict-Transport-Security", lit "Timing-Allow-Origin", lit "Tk", lit "Trailer",
   lit "Transfer-Encoding", lit "Upgrade", lit "Vary", lit "Via", lit "WWW-Authenticate",
   lit "Warning"]

/-! Matching a token against what the grammar expects. -/

/-- Length of the common prefix. -/
def mismatch : Bytes → Bytes → ℕ
  | a :: lhs, b :: rhs => if a = b then mismatch lhs rhs + 1 else 0
  | _, _ => 0

def expecting (expectation reality fullMessage : Bytes) (hint : Bytes) : Parse ℕ :=
  let cur := mismatch expectation reality
  if 0 < cur ∧ cur = reality.length ∧ cur < expectation.length ∧ fullMessage = [] then
    .error (.expectingData (if hint = [] then expectation else hint))
  else
    .ok cur

/-- `std::find_if` with `expecting` as its predicate: whether it stops before the end. -/
def findExpected (reality fullMessage hint : Bytes) : List Bytes → Parse Bool
  | [] => .ok false
  | sv :: range => do
    let cur ← expecting sv reality fullMessage hint
    if cur = reality.length then return true
    findExpected reality fullMessage hint range

def expectingToFindInRange (range : List Bytes) (reality fullMessage hint : Bytes) :
    Parse Unit := do
  if ← findExpected reality fullMessage hint range then return ()
  throw (.incorrectData (if hint = [] then reality else hint))

/-- Returns the version and what is left of the view. -/
def parseProtocol (sv : Bytes) : Parse (Bytes × Bytes) := do
  let (token, sv) ← readToken sv
  let cur ← expecting (lit "HTTP/") token sv []
  if cur = 0 then throw (.incorrectData (lit "Request protocol"))
  let token ← removePrefix cur token
  if token = [] then throw (.expectingData (lit "Request protocol version"))
  if 3 < token.length then throw (.incorrectData (lit "Request version"))
  expectingToFindInRange VERSIONS token sv (lit "Request version")
  return (token, sv)

/-- The loop of `parse_headers`. It returns the headers, the view and the last
`cur`, which is `none` (`npos`) unless the loop ended at an empty line. -/
def headerLoop (names : List Bytes) : ℕ → List Header → Bytes →
    Parse (List Header × Bytes × Option ℕ)
  | 0, _, _ => .error .diverges
  | fuel + 1, headers, sv =>
    match Search.find CRLF sv with
    | none => .ok (headers, sv, none)
    | some 0 => .ok (headers, sv, some 0)
    | some (_ + 1) => do
      let (token, sv) ← readToken sv
      if token = [] ∨ token.findIdx? (· = 58) ≠ some (token.length - 1) then
        throw (.incorrectData (lit "Header name"))
      let token ← removeSuffix 1 token
      if BinarySearch.binarySearch names token = false ∧
          Search.find (lit "X-") token ≠ some 0 then
        throw (.incorrectData (lit "Header name"))
      if headers.any (fun h => h.name = token) then
        throw (.incorrectData (lit "Multiple header use"))
      let sv := leftStrip sv
      let cur := Search.find CRLF sv
      let value ← rangeTo cur sv
      let sv ← removePrefix (cur.getD 0 + 2) sv
      headerLoop names fuel (headers ++ [⟨token, value⟩]) sv

/-- Each round of the loop takes a line off the view, so its length bounds the rounds. -/
def parseHeaders (names : List Bytes) (sv : Bytes) : Parse (List Header × Bytes) := do
  let (headers, sv, cur) ← headerLoop names (sv.length + 1) [] sv
  if cur = none ∧ sv = [] then throw (.expectingData (lit "Header"))
  return (headers, sv)

def isSpaceC (c : UInt8) : Bool := c = 32 || (9 ≤ c && c ≤ 13)

/-- `std::stoul` in base ten on 64 bits: leading white space and one sign are
skipped, a minus negates modulo `2 ^ 64`, what follows the digits is ignored.
`none` stands for `invalid_argument` and `out_of_range`, which are both logic errors. -/
def stoul (str : Bytes) : Option ℕ :=
  let str := str.dropWhile isSpaceC
  let negative := str.head? = some 45
  let str := if str.head? = some 45 ∨ str.head? = some 43 then str.tail else str
  let digits := str.takeWhile Numeral.isDigit
  if digits = [] then none
  else if Numeral.value digits < 2 ^ 64 then
    some (if negative then (2 ^ 64 - Numeral.value digits) % 2 ^ 64 else Numeral.value digits)
  else none

def isLengthHeader (h : Header) : Bool :=
  h.name = lit "Content-Length" || h.name = lit "Transfer-Encoding"

def parseBody (headers : List Header) (sv : Bytes) : Parse Bytes :=
  match headers.find? isLengthHeader with
  | some it =>
    match stoul it.value with
    | none => .error (.incorrectData (lit "Content length"))
    | some size =>
      if sv.length < size then .error (.expectingData (lit "Body"))
      else if size < sv.length then .error (.incorrectData (lit "Size of body"))
      else .ok sv
  | none =>
    if sv ≠ [] then .error (.incorrectData (lit "Body exists, but no content length found"))
    else .ok []

/-- `http::to_string` of a header. -/
def Header.str (h : Header) : Bytes := h.name ++ lit ": " ++ h.value ++ CRLF

structure Request where
  method : Bytes
  target : Bytes
  version : Bytes
  headers : List Header
  body : Bytes
  deriving DecidableEq, Repr

def Request.str (r : Request) : Bytes :=
  r.method ++ [SP] ++ r.target ++ [SP] ++ lit "HTTP/" ++ r.version ++ CRLF ++
    r.headers.flatMap Header.str ++ CRLF ++ r.body

def Request.parse (req : Bytes) : Parse Request := do
  let (method, sv) ← readToken req
  expectingToFindInRange METHODS method sv []
  let (target, sv) ← readToken sv
  let (version, sv) ← parseProtocol sv
  let sv := leftStrip sv
  let cur ← expecting CRLF (sv.take 2) sv []
  if cur = 0 then throw (.incorrectData (lit "Start line"))
  let sv ← removePrefix 2 sv
  let (headers, sv) ← parseHeaders REQUEST_HEADER_NAMES sv
  let sv ← removePrefix 2 sv
  let body ← parseBody headers sv
  return { method, target, version, headers, body }

/-- `code` holds whatever the conversion to the 16-bit `StatusCode` leaves. -/
structure Responce where
  version : Bytes
  code : UInt16
  text : Bytes
  headers : List Header
  body : Bytes
  deriving DecidableEq, Repr

def Responce.str (r : Responce) : Bytes :=
  lit "HTTP/" ++ r.version ++ [SP] ++ Numeral.decimal r.code.toNat ++ [SP] ++ r.text ++ CRLF ++
    r.headers.flatMap Header.str ++ CRLF ++ r.body

def NetworkConnectTimeoutError : UInt16 := 599

/-- The `try` block around `std::stoul`; the cast keeps the low 16 bits. -/
def codeOfToken (token : Bytes) : Parse UInt16 :=
  match stoul token with
  | some n => .ok (UInt16.ofNat n)
  | none => .error (.incorrectData (lit "Cannot convert error code"))

def Responce.parse (responce : Bytes) : Parse Responce := do
  let (version, sv) ← parseProtocol responce
  let (token, sv) ← readToken sv
  let code ← codeOfToken token
  if code.toNat < 60 ∧ sv = [] then throw (.expectingData (lit "Status code"))
  if NetworkConnectTimeoutError < code then throw (.incorrectData (lit "Status code"))
  let sv := leftStrip sv
  let cur := Search.find CRLF sv
  if cur = none then throw (.expectingData (lit "Start line"))
  let text ← rangeTo cur sv
  let sv ← removePrefix (cur.getD 0 + 2) sv
  let (headers, sv) ← parseHeaders RESPONCE_HEADER_NAMES sv
  let sv ← removePrefix 2 sv
  let body ← parseBody headers sv
  return { version, code, text, headers, body }

end Sphere.Http
