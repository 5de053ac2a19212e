import SymbolicLtl.Text.Beginning
import SymbolicLtl.Text.Bytes
import SymbolicLtl.Text.Integer

/-!
Addresses of servers. An address is a locator whose scheme says how it is read: the path of a
socket, a host with a service, or, without a known scheme, whatever stands there.
-/
namespace SymbolicLtl

/-- The parts of a locator. What has no slash behind the scheme is opaque. -/
structure Locator where
  scheme : String
  host : String
  path : String
  opaquePart : String
deriving DecidableEq, Repr

namespace Locator

def isHexDigit (c : Char) : Bool := ((Text.digitValue c).getD 16) < 16

/-- A text with its percent escapes replaced, or the first one that is none. The first `skip`
characters were read already. -/
def decode : (skip : Nat) → List Char → Except String (List UInt8)
  | _, [] => .ok []
  | k + 1, _ :: rest => decode k rest
  | 0, c :: rest =>
    if c = '%' then
      match rest with
      | a :: b :: _ =>
        if isHexDigit a && isHexDigit b then do
          let n := 16 * (Text.digitValue a).getD 0 + (Text.digitValue b).getD 0
          return n.toUInt8 :: (← decode 2 rest)
        else .error (String.ofList ['%', a, b])
      | _ => .error (String.ofList (c :: rest))
    else do return Text.bytes c.toString ++ (← decode 0 rest)

def decodeText (text : List Char) : Except String String :=
  match decode 0 text with
  | .ok bs => .ok (Text.ofBytes bs)
  | .error escape => .error ("invalid URL escape " ++ Text.quote escape)

/-- The scheme in front of the first colon, in small letters, and the rest. -/
def takeScheme (text : List Char) : Except String (String × List Char) :=
  let name := text.takeWhile fun c => c.isAlphanum || c == '+' || c == '-' || c == '.'
  match name, text.drop name.length with
  | [], ':' :: _ => .error "missing protocol scheme"
  | c :: _, ':' :: rest =>
    if c.isAlpha then .ok (String.ofList (name.map Char.toLower), rest) else .ok ("", text)
  | _, _ => .ok ("", text)

def isHostChar (c : Char) : Bool :=
  c.isAlphanum || 128 ≤ c.toNat || "-_.~!$&'()*+,;=:[]<>\"%".contains c

/-- The host of an authority, behind the name of a user. A service behind it is a number. -/
def takeHost (authority : List Char) : Except String String := do
  let host := (Text.splitBy '@' authority).getLastD []
  if host.contains '[' && !host.contains ']' then throw "missing ']' in host"
  let behind := if host.contains '[' then (Text.splitBy ']' host).getLastD [] else host
  let service := match Text.splitBy ':' behind with
    | [_] => []
    | parts => parts.getLastD []
  if !service.all Char.isDigit ||
      (host.contains '[' && !behind.isEmpty && behind ≠ ':' :: service) then
    throw "invalid port after host"
  if !host.all isHostChar then throw "invalid character in host name"
  decodeText host

def parse (text : String) : Except String Locator :=
  let (before, fragment) := Text.cut '#' text.toList
  let located : Except String Locator := do
    if before.any fun c => c.toNat < 32 || c.toNat == 127 then
      throw "net/url: invalid control character in URL"
    let (scheme, rest) ← takeScheme before
    let rest := (Text.cut '?' rest).1
    match rest with
    | '/' :: '/' :: authority =>
      if scheme = "" && authority.head? == some '/' then
        return ⟨scheme, "", ← decodeText rest, ""⟩
      let host ← takeHost (authority.takeWhile (· != '/'))
      return ⟨scheme, host, ← decodeText (authority.dropWhile (· != '/')), ""⟩
    | '/' :: _ => return ⟨scheme, "", ← decodeText rest, ""⟩
    | _ =>
      if scheme ≠ "" then return ⟨scheme, "", "", String.ofList rest⟩
      if (Text.cut '/' rest).1.contains ':' then
        throw "first path segment in URL cannot contain colon"
      return ⟨"", "", ← decodeText rest, ""⟩
  let failure (text reason : String) : String := "parse " ++ Text.quote text ++ ": " ++ reason
  match located with
  | .error reason => .error (failure (String.ofList before) reason)
  | .ok locator =>
    match decodeText (fragment.getD []) with
    | .error reason => .error (failure text reason)
    | .ok _ => .ok locator

def target (l : Locator) : String := if l.path = "" then l.opaquePart else l.path

/-- The target without the slash that separates it from the host. -/
def endpoint (l : Locator) : String :=
  match l.target.toList with
  | '/' :: rest => String.ofList rest
  | _ => l.target

end Locator

inductive Endpoint where
  | socket (path : String)
  | network (address : String)
deriving DecidableEq, Repr

namespace Endpoint

/-- A host and a service. The service stands behind the last colon, and a host that has colons
itself in brackets. -/
def splitAddress (address : List Char) : Except String (List Char × List Char) :=
  let why (text : String) : Except String (List Char × List Char) :=
    .error ("address " ++ String.ofList address ++ ": " ++ text)
  let parts := Text.splitBy ':' address
  let service := parts.getLastD []
  if parts.length < 2 then why "missing port in address"
  else if address.head? == some '[' then
    let (host, rest) := Text.cut ']' (address.drop 1)
    match rest with
    | none => why "missing ']' in address"
    | some behind =>
      if behind.isEmpty then why "missing port in address"
      else if behind ≠ ':' :: service then
        if behind.head? == some ':' then why "too many colons in address"
        else why "missing port in address"
      else if host.contains '[' || service.contains '[' then why "unexpected '[' in address"
      else if service.contains ']' then why "unexpected ']' in address"
      else .ok (host, service)
  else
    let host := address.take (address.length - service.length - 1)
    if host.contains ':' then why "too many colons in address"
    else if address.contains '[' then why "unexpected '[' in address"
    else if address.contains ']' then why "unexpected ']' in address"
    else .ok (host, service)

def services : List (String × Nat) := [
  ("domain", 53), ("ftp", 21), ("ftps", 990), ("gopher", 70), ("http", 80), ("https", 443),
  ("imap2", 143), ("imap3", 220), ("imaps", 993), ("pop3", 110), ("pop3s", 995), ("smtp", 25),
  ("submissions", 465), ("ssh", 22), ("telnet", 23)]

def readService (text : List Char) : Except String Nat :=
  let service := String.ofList text
  let (sign, number) := Text.takeSign text
  if number.all Char.isDigit then
    let n := sign * (((String.ofList number).toNat?).getD 0 : Nat)
    if 0 ≤ n ∧ n ≤ 65535 then .ok n.toNat else .error ("address " ++ service ++ ": invalid port")
  else match services.lookup service with
    | some n => .ok n
    | none => .error ("lookup tcp/" ++ service ++ ": unknown port")

/-- A host that is written as four bytes. -/
def isQuad (host : List Char) : Bool :=
  let isByte (part : List Char) : Bool :=
    !part.isEmpty && part.all Char.isDigit && (part.length = 1 || part.head? ≠ some '0') &&
      ((String.ofList part).toNat?.getD 256) < 256
  let parts := Text.splitBy '.' host
  parts.length = 4 && parts.all isByte

/-- The number of words of 16 bits in a list of groups, if all of them are numbers. The last group
may be four bytes. -/
def groupCount? : List (List Char) → Option Nat
  | [] => some 0
  | [last] =>
    if isQuad last then some 2
    else if !last.isEmpty && last.length ≤ 4 && last.all Locator.isHexDigit then some 1 else none
  | group :: rest =>
    if !group.isEmpty && group.length ≤ 4 && group.all Locator.isHexDigit
    then (groupCount? rest).map (· + 1) else none

/-- A host that is written as eight words of 16 bits; one run of zeros can be left out. -/
def isOctet (host : List Char) : Bool :=
  let groups := Text.splitBy ':' host
  let isGap (k : Nat) : Bool := match groups.drop k with
    | [] :: _ :: _ => true
    | _ => false
  match (List.range groups.length).find? fun k => 0 < k && isGap k with
  | none => groups.head? ≠ some [] && groupCount? groups = some 8
  | some k =>
    let before := if k = 1 && groups.head? = some [] then [] else groups.take k
    let after := if groups.drop (k + 1) = [[]] then [] else groups.drop (k + 1)
    match groupCount? before, groupCount? after with
    | some a, some b => a + b < 8 && !before.any (·.contains '.')
    | _, _ => false

def isNumeric (host : List Char) : Bool := isQuad host || isOctet host

def networkFailure (address : String) : String :=
  let found : Except String (List Char × Nat) := do
    let (host, service) ← splitAddress address.toList
    return (host, ← readService service)
  match found with
  | .error reason => "dial tcp: " ++ reason
  | .ok (host, service) =>
    if host.isEmpty || isNumeric host || host = "localhost".toList then
      let shown := if host = "localhost".toList then "127.0.0.1" else String.ofList host
      let shown := if host.contains ':' then "[" ++ shown ++ "]" else shown
      "dial tcp " ++ shown ++ ":" ++ toString service ++ ": connect: connection refused"
    else "dial tcp: lookup " ++ String.ofList host ++ ": no such host"

/-- The endpoint of an address without a scheme: a socket if it says so. -/
def ofPlain (address : String) : Endpoint :=
  match Text.after "unix:".toList address.toList with
  | some rest =>
    if rest.head? == some '/' then
      match Locator.parse address with
      | .ok l => .socket (if l.path = "" then l.host else l.path)
      | .error _ => .network address
    else .socket (String.ofList rest)
  | none => .network address

/-- The host and the service of a name, with the service of secure pages if there is none. -/
def ofName (name : String) : Except String Endpoint :=
  let default := ":443"
  let text := name.toList
  if text.isEmpty then .error "dns resolver: missing address"
  else if isNumeric text then
    .ok (.network (if text.contains ':' then "[" ++ name ++ "]" ++ default else name ++ default))
  else match splitAddress text with
    | .ok (_, []) => .error "dns resolver: missing port after port-separator colon"
    | .ok ([], service) => .ok (.network ("localhost:" ++ String.ofList service))
    | .ok _ => .ok (.network name)
    | .error _ =>
      match splitAddress (text ++ default.toList) with
      | .ok _ => .ok (.network (name ++ default))
      | .error reason => .error ("invalid target address " ++ name ++ ", error info: " ++ reason)

/-- The endpoint of a locator, if its scheme is known. -/
def ofLocator? (l : Locator) : Option (Except String Endpoint) :=
  let socket (start : String) : Except String Endpoint :=
    if l.host ≠ "" then .error ("invalid (non-empty) authority: " ++ l.host)
    else .ok (.socket (start ++ l.target))
  match l.scheme with
  | "unix" => some (socket "")
  | "unix-abstract" => some (socket "@")
  | "passthrough" =>
    some (if l.endpoint = "" then .error "passthrough: received empty target in Build()"
      else .ok (ofPlain l.endpoint))
  | "dns" => some (ofName l.endpoint)
  | _ => none

/-- The endpoint of an address. An address without a known scheme is taken as it stands. -/
def ofAddress (address : String) : Except String Endpoint :=
  let built (r : Except String Endpoint) := r.mapError ("failed to build resolver: " ++ ·)
  match (Locator.parse address).toOption.bind ofLocator? with
  | some r => built r
  | none => do
    let l ← Locator.parse ("passthrough:///" ++ address)
    built ((ofLocator? l).getD (.ok (.network address)))

end Endpoint
end SymbolicLtl
