import Dockerfile.Url.Domain
import Dockerfile.Url.IpAddress
import Dockerfile.Url.Path

/-!
# Absolute addresses

Documents and pages are known by their address. Two spellings of one address are brought to the same
form: the scheme in lower case, the host in its common form, dot segments resolved, and characters
that may not stand in an address written as the bytes of their UTF-8 form.

The host of an address is a name or a number. The common schemes know domain names, in which case
does not count and escapes are resolved, and names that are numbers. For other schemes a host is kept
as it is written. A number of the sixth version stands between brackets.
-/

namespace Dockerfile

/-! ## Hosts -/

namespace Url

def bracketed? (text : Text) : Option Text := do
  match text with
  | '[' :: inner =>
      if inner.getLast? = some ']' then
        let host ← Ipv6.ofText? inner.dropLast
        return ['['] ++ host.render ++ [']']
      else none
  | _ => none

def host? (text : Text) : Option Text :=
  if text.head? = some '[' then bracketed? text
  else do
    let domain ← domain? (← unescape? text)
    if domain.isEmpty then none
    else if Ipv4.endsInNumber domain then (Ipv4.ofText? domain).map Ipv4.render
    else some domain

def isForbiddenInHost (c : Char) : Bool :=
  c.toNat == 0 || c == '\t' || isLineBreak c || " #/:<>?@[\\]^|".toList.contains c

/-- The host of a scheme that is not common, which may be empty. -/
def opaqueHost? (text : Text) : Option Text :=
  if text.head? = some '[' then bracketed? text
  else if text.any isForbiddenInHost then none
  else some (encode isControl text)

end Url

/-! ## Addresses -/

namespace Url

def tail (isSpecial : Bool) (text : Text) : Text :=
  let query := text.takeWhile fun c => c != '#'
  let fragment := text.dropWhile fun c => c != '#'
  encode (if isSpecial then inSpecialQuery else inQuery) query ++
    (match fragment with
      | [] => []
      | mark :: rest => mark :: encode inFragment rest)

def splitTail (text : Text) : Text × Text :=
  Text.cutAt (fun c => c == '?' || c == '#') text

def isSlash (c : Char) : Bool :=
  c == '/'

/-- The slashes of the common schemes, in which a backslash counts as one. -/
def isSpecialSlash (c : Char) : Bool :=
  c == '/' || c == '\\'

def defaultPort? (scheme : String) : Option Nat :=
  match scheme with
  | "http" | "ws" => some 80
  | "https" | "wss" => some 443
  | "ftp" => some 21
  | _ => none

def isSpecialScheme (scheme : String) : Bool :=
  (defaultPort? scheme).isSome

/-- An authority in its common form, and what follows it. -/
structure Authority where
  user : Text
  host : Text
  port : Text
  rest : Text

def splitLast? (c : Char) (text : Text) : Option (Text × Text) :=
  if text.contains c then
    let after := (text.reverse.takeWhile fun d => d != c).reverse
    some (text.take (text.length - after.length - 1), after)
  else none

/-- The user and the password of an authority, with the sign behind them; nothing if both are
empty. -/
def userInfo (text : Text) : Text :=
  let cut := Text.cutAt (fun c => c == ':') text
  let name := encode inUser cut.1
  let word := encode inUser (cut.2.drop 1)
  let shown := name ++ (if word.isEmpty then [] else ':' :: word)
  if shown.isEmpty then [] else shown ++ ['@']

/-- Splits a host from its port: at the first colon that is not between brackets. -/
def splitPort (isInside : Bool) : Text → Text × Text
  | [] => ([], [])
  | c :: rest =>
      if c == ':' && !isInside then ([], c :: rest)
      else
        let others := splitPort (if c == '[' then true else if c == ']' then false else isInside) rest
        (c :: others.1, others.2)

/-- The port, if it has to be written, and what follows its digits. What follows a port that ends
early starts with a backslash. -/
def port? (scheme : String) (text : Text) : Option (Text × Text) :=
  let digits := text.takeWhile Char.isDigit
  let rest := text.dropWhile Char.isDigit
  let n := digits.foldl (fun n c => n * 10 + (c.toNat - '0'.toNat)) 0
  if 65535 < n || !(rest.isEmpty || rest.head? == some '\\') then none
  else if digits.isEmpty || some n == defaultPort? scheme then some ([], rest)
  else some (':' :: (toString n).toList, rest)

/-- Reads the authority at the start of a text. It ends at a slash, a query or a fragment. Only a
scheme that is not common can go without a host, and then there is no user and no port. -/
def authority? (scheme : String) (text : Text) : Option Authority := do
  let isSpecial := isSpecialScheme scheme
  let ends := fun c => c == '?' || c == '#' || (if isSpecial then isSpecialSlash c else isSlash c)
  let (text, rest) := Text.cutAt ends text
  let (user, text, isBare) := match splitLast? '@' text with
    | some (user, text) => (userInfo user, text, user.isEmpty)
    | none => ([], text, false)
  let (hostText, portText) := splitPort false text
  if hostText.isEmpty && (isSpecial || !user.isEmpty || !portText.isEmpty || (isBare && !rest.isEmpty)) then
    none
  else
    let host ← if isSpecial then host? hostText else opaqueHost? hostText
    let (port, left) ← port? scheme (portText.drop 1)
    return ⟨user, host, port, left ++ rest⟩

def Authority.render (a : Authority) : Text :=
  "//".toList ++ a.user ++ a.host ++ a.port

def afterSlash? (text : Text) : Option Text :=
  match text.dropWhile isIgnored with
  | c :: rest => if isSpecialSlash c then some rest else none
  | [] => none

def fileAddress (host : Text) (segments : List Text) (rest : Text) : Text :=
  let path := filePath segments
  "file://".toList ++ (if path.hasDrive then [] else host) ++ renderSegments path.segments ++
    tail true (visible rest)

/-- The address of a file without a host, from its path without the first slash. -/
def localFile (text : Text) : Text :=
  let cut := splitTail text
  fileAddress [] (Text.parts isSpecialSlash cut.1) cut.2

/-- The address of a file from what follows the two slashes in front of the host. A drive is no host.
The slash behind an empty host stands for an empty segment. -/
def hostedFile? (text : Text) : Option Text :=
  let cut := Text.cutAt (fun c => isSpecialSlash c || c == '?' || c == '#') text
  let hostText := visible cut.1
  if isDrive hostText then some (localFile text)
  else do
    let host ← if hostText.isEmpty then some [] else host? hostText
    if host.isEmpty || host == "localhost".toList then return localFile cut.2
    else
      let parts := splitTail cut.2
      return fileAddress host (Text.parts isSpecialSlash (parts.1.drop 1)) parts.2

/-- Reads an address of the scheme `file`. Tabs and line breaks are still in it. -/
def file? (text : Text) : Option Text :=
  match afterSlash? text with
  | none => some (localFile text)
  | some once =>
      match afterSlash? once with
      | none => some (localFile once)
      | some twice => hostedFile? twice

/-- Reads an address of a common scheme. It may have any number of slashes in front. -/
def special? (scheme : String) (text : Text) : Option Text := do
  let authority ← authority? scheme (text.dropWhile isSpecialSlash)
  let (route, rest) := splitTail authority.rest
  return scheme.toList ++ [':'] ++ authority.render ++ path isSpecialSlash (route.drop 1) ++
    tail true rest

/-- The path behind an authority of a scheme that is not common, which may be missing. -/
def otherPath : Text → Text
  | [] => []
  | '/' :: rest => path isSlash rest
  | text => path isSlash text

/-- The path of an address without an authority. Two slashes at its start would begin an authority,
and a dot segment keeps them apart. -/
def rootedPath (text : Text) : Text :=
  let shown := path isSlash text
  if "//".toList.isPrefixOf shown then "/.".toList ++ shown else shown

/-- Reads an address of another scheme: with an authority, with a path, or with neither. -/
def other? (scheme : String) (text : Text) : Option Text :=
  let start := scheme.toList ++ [':']
  match text with
  | '/' :: '/' :: after => do
      let authority ← authority? scheme after
      let (route, rest) := splitTail authority.rest
      return start ++ authority.render ++ otherPath route ++ tail false rest
  | '/' :: after =>
      let (route, rest) := splitTail after
      some (start ++ rootedPath route ++ tail false rest)
  | _ =>
      let (route, rest) := splitTail text
      some (start ++ encode isControl route ++ tail false rest)

/-- Takes off the controls and spaces around an address. -/
def trimControls (text : Text) : Text :=
  let isOuter := fun (c : Char) => c.toNat ≤ 0x20
  ((text.dropWhile isOuter).reverse.dropWhile isOuter).reverse

/-- The scheme of an address in lower case: what stands in front of the first colon, which starts
with a letter. -/
def scheme? (text : Text) : Option String :=
  let isPart := fun (c : Char) => c.isAlphanum || c == '+' || c == '-' || c == '.'
  let name := visible (text.takeWhile fun c => c != ':')
  if text.contains ':' && name.head?.any Char.isAlpha && name.all isPart then
    some (String.ofList (Text.lowercase name))
  else none

/-- An absolute address in its common form. -/
def normalize? (text : Text) : Option Text := do
  let text := trimControls text
  let scheme ← scheme? text
  let rest := (text.dropWhile fun c => c != ':').drop 1
  if scheme == "file" then file? rest
  else if isSpecialScheme scheme then special? scheme (visible rest)
  else other? scheme (visible rest)

end Url

end Dockerfile
