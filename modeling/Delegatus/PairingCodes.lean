import Delegatus.ArrayCallbacks
import Delegatus.JsonText

/-!
# Pairing codes

The file of grants of a linked install and the four calls that read and rewrite its codes:
`mintCode`, `cancelCode`, `probePair` and `pairIncoming`. Each of them reads the file, changes
it and writes it back without waiting in between (`mintCode` waits for its check before it
reads), so a call is one step. What a call reads elsewhere, the access key, the saved address
and its check, is its `Install`; what it draws at random and reads from the clock are inputs.

`serial` of a code and `origin` of a grant, `minted` and `failed` of the file are history
variables: no branch reads them.
-/

namespace Delegatus.PairingCodes

open ArrayCallbacks

inductive Scope where
  | boardSync
deriving DecidableEq

structure PairCode where
  id : String
  hash : String
  expires : Int
  attempts : Int
  failures : List Int
  scopes : List Scope
  used : Bool
  burned : Bool
  /-- The number of the mint that made it. -/
  serial : Nat

structure Grant where
  id : String
  hash : String
  install : String
  label : JsonText.Text
  scopes : List Scope
  created : Int
  lastUsed : Option Int
  requests : Nat
  movedAt : Option Int
  flushedAt : Option Int
  /-- The serial of the code it was given for. -/
  origin : Nat
deriving DecidableEq

structure Grants where
  codes : List PairCode
  grants : List Grant
  /-- How many codes were minted. -/
  minted : Nat
  /-- The failed attempts that were counted: the code and the time. -/
  failed : List (Nat × Int)

/-- What `readGrants` gives before anything was written. -/
def noGrants : Grants := { codes := [], grants := [], minted := 0, failed := [] }

inductive CheckCode where
  | ok
  | needsAccessKey
  | needsRemoteEntry
  | httpPublic
  | openToInternet
  | hostRewritten
  | tlsFailure
  | unverified
deriving DecidableEq

structure LinkSelf where
  installId : String
  label : String
deriving DecidableEq

/-- What a call reads outside the file. -/
structure Install where
  /-- `LLV_TOKEN`, empty when it is not set. -/
  accessKey : String
  state : Option CheckCode
  publicUrl : Option String
  localVouches : Bool
  self : Option LinkSelf
  storeId : String

def pairable (install : Install) (code : Option CheckCode) : Bool :=
  code = some .ok || (code = some .unverified && !install.localVouches)

/-! ### Codes as text -/

def alphabet : List Char := "0123456789ABCDEFGHJKMNPQRSTVWXYZ".toList

def encode (bytes : List UInt8) (count : Nat) : String :=
  String.ofList ((bytes.take count).map (fun value => alphabet.getD (value.toNat % 32) '0'))

/-- The upper case of a character. One whose upper case is not plain ASCII stays as it is:
    `validCode` accepts neither. -/
def upperCase (c : Char) : List Char :=
  if c = 'ß' then ['S', 'S']
  else if c = 'ı' then ['I']
  else if c = 'ſ' then ['S']
  else if c = 'ﬀ' then ['F', 'F']
  else if c = 'ﬁ' then ['F', 'I']
  else if c = 'ﬂ' then ['F', 'L']
  else if c = 'ﬃ' then ['F', 'F', 'I']
  else if c = 'ﬄ' then ['F', 'F', 'L']
  else if c = 'ﬅ' || c = 'ﬆ' then ['S', 'T']
  else [c.toUpper]

def normalizeCode (value : String) : String :=
  String.ofList (((value.toList.flatMap upperCase).map
    (fun c => if c = 'I' || c = 'L' then '1' else if c = 'O' then '0' else c)).filter (· ≠ '-'))

def validCode (value : String) : Bool :=
  value.toList.length = 16 && value.toList.all (alphabet.contains ·)

def codeId (value : String) : String := String.ofList (value.toList.take 6)

def codeSecret (value : String) : String := String.ofList (value.toList.drop 6)

/-! ### Minting and cancelling -/

inductive MintRefusal where
  | invalidAddress
  | check (code : CheckCode)
deriving DecidableEq

inductive MintReply where
  | refused (error : MintRefusal)
  /-- Every id drawn so far is taken. -/
  | drawing
  | minted (code : String) (expiresAt : Int)
deriving DecidableEq

def markUsed (code : PairCode) : PairCode := { code with used := true }

/-- The first id drawn that no code of the file has. -/
def freshId (codes : List PairCode) (draws : List (List UInt8)) : Option String :=
  (draws.map (encode · 6)).find? (fun id => codes.all (fun entry => entry.id ≠ id))

section Mint

variable (sha : String → String) (install : Install) (check : CheckCode)
  (draws : List (List UInt8)) (tailBytes : List UInt8) (now : Nat → Int)

/-- The codes that stay in the file when one is minted: none of them live. -/
def retireCodes (codes : List PairCode) : List PairCode :=
  mapAt (fun t entry => if !entry.used && entry.expires > t then markUsed entry else entry)
    (later now codes.length)
    (filterAt (fun t entry => entry.expires > t - 86400000) now codes)

def mintCode (file : Grants) : Grants × MintReply :=
  if install.accessKey = "" then (file, .refused (.check .needsAccessKey))
  else if install.publicUrl.getD "" = "" then (file, .refused .invalidAddress)
  else if install.state = some .needsRemoteEntry then (file, .refused (.check .needsRemoteEntry))
  else if install.state = some .httpPublic then (file, .refused (.check .httpPublic))
  else if install.state = some .openToInternet then (file, .refused (.check .openToInternet))
  else if check ≠ .ok && !pairable install (some check) then (file, .refused (.check check))
  else
    let codes := retireCodes now file.codes
    match freshId codes draws with
    | none => (file, .drawing)
    | some id =>
      let tail := encode tailBytes 10
      let expiresAt := now (2 * file.codes.length) + 600000
      let code : PairCode := {
        id, hash := sha tail, expires := expiresAt, attempts := 20, failures := []
        scopes := [.boardSync], used := false, burned := false, serial := file.minted }
      ({ file with codes := codes ++ [code], minted := file.minted + 1 },
        .minted (String.ofList (id.toList ++ '-' :: tail.toList.take 5 ++ '-' :: tail.toList.drop 5))
          expiresAt)

end Mint

def cancelCode (id : String) (file : Grants) : Grants :=
  { file with codes := file.codes.filter (fun code => code.id ≠ id) }

/-! ### Probing and pairing -/

inductive PairError where
  | unauthorized
  | codeSpent
  | rateLimited
deriving DecidableEq

inductive ProbeReply where
  | refused (status : Nat) (error : PairError)
  | probed (vouched : Bool)
deriving DecidableEq

def isLineTerminator (c : Char) : Bool :=
  c = '\n' || c = '\r' || c.toNat = 0x2028 || c.toNat = 0x2029

/-- The token of an authorization header: `/^Bearer\s+(.+)$/i`. -/
def bearerOf (authorization : Option String) : Option (List Char) :=
  let header := (authorization.getD "").toList
  let spaces := (header.drop 6).takeWhile JsStrings.isSpace
  let token := (header.drop 6).dropWhile JsStrings.isSpace
  if (header.take 6).map Char.toLower ≠ "bearer".toList || spaces = [] then none
  else if token = [] then
    -- nothing but white space: the last of it is the token
    match spaces.dropLast, spaces.getLast? with
    | _ :: _, some c => if isLineTerminator c then none else some [c]
    | _, _ => none
  else if token.any isLineTerminator then none
  else some token

/-- The probe arrived with this install's own access key. -/
def vouches (install : Install) (authorization : Option String) : Bool :=
  match bearerOf authorization with
  | none => false
  | some bearer => install.accessKey ≠ "" && bearer = install.accessKey.toList

/-- `id` is none when the body's is no string. -/
def probePair (install : Install) (id : Option String) (authorization : Option String)
    (now : Nat → Int) (file : Grants) : Grants × ProbeReply :=
  match id with
  | none => (file, .refused 401 .unauthorized)
  | some id =>
    if !(id.toList.length = 6 && id.toList.all (alphabet.contains ·)) then
      (file, .refused 401 .unauthorized)
    else
      let live := fun t (item : PairCode) => item.id = id && !item.used && item.expires > t
      match findAt live now file.codes with
      | none => (file, .refused 401 .unauthorized)
      | some _ =>
        if vouches install authorization then
          ({ file with codes := updateAt live markUsed now file.codes }, .probed true)
        else (file, .probed false)

/-- The body of a pairing request; a field is none when it is no string. -/
structure PairInput where
  code : Option String
  install : Option String
  label : Option JsonText.Text

inductive PairReply where
  | refused (status : Nat) (error : PairError)
  | granted (grant : Grant) (token : String) (install : LinkSelf) (storeId : String)
deriving DecidableEq

/-- `/^[0-9a-f-]{36}$/`. -/
def isInstallId (install : String) : Bool :=
  install.toList.length = 36 && install.toList.all ("0123456789abcdef-".toList.contains ·)

/-- The failures of the last minute. -/
def recentFailures (now : Nat → Int) (code : PairCode) : List Int :=
  filterAt (fun t failure => failure > t - 60000) now code.failures

/-- A failed attempt is written to the code it was made on. -/
def countFailure (recent : List Int) (time : Int) (code : PairCode) : PairCode :=
  let attempts := code.attempts - 1
  { code with
    attempts
    failures := recent ++ [time]
    used := code.used || attempts ≤ 0
    burned := code.burned || attempts ≤ 0 }

section Pair

variable (sha : String → String) (install : Install) (input : Option PairInput)
  (grantId token : String) (now : Nat → Int)

/-- The clock is read twice for the expiry, once for each recorded failure, and once more for
    what is written. -/
def pairIncoming (file : Grants) : Grants × PairReply :=
  match input with
  | none => (file, .refused 401 .unauthorized)
  | some input =>
    let raw := (input.code.map normalizeCode).getD ""
    if !validCode raw then (file, .refused 401 .unauthorized)
    else
      let named := fun (_ : Int) (item : PairCode) => decide (item.id = codeId raw)
      match findAt named now file.codes with
      | none => (file, .refused 401 .unauthorized)
      | some code =>
        let isMatch := decide (code.hash = sha (codeSecret raw))
        if isMatch && (code.used || code.expires ≤ now 0) then (file, .refused 410 .codeSpent)
        else if code.used || code.expires ≤ now 1 then (file, .refused 401 .unauthorized)
        else
          let recent := recentFailures (later now 2) code
          let last := now (code.failures.length + 2)
          if recent.length ≥ 5 then (file, .refused 429 .rateLimited)
          else if !isMatch || !input.install.any isInstallId || input.label.isNone then
            ({ file with
                codes := updateAt named (countFailure recent last) now file.codes
                failed := file.failed ++ [(code.serial, last)] },
              .refused 401 .unauthorized)
          else if install.accessKey = "" || !pairable install install.state then
            (file, .refused 401 .unauthorized)
          else
            match install.self with
            | none => (file, .refused 401 .unauthorized)
            | some self =>
              let grant : Grant := {
                id := grantId, hash := sha token, install := input.install.getD ""
                label := (input.label.getD []).take 100, scopes := code.scopes, created := last
                lastUsed := none, requests := 0, movedAt := none, flushedAt := none
                origin := code.serial }
              ({ file with
                  codes := updateAt named markUsed now file.codes
                  grants := file.grants ++ [grant] },
                .granted grant token self install.storeId)

end Pair

/-! ### Calls -/

/-- A call with what it draws at random, or reads elsewhere. -/
inductive Op where
  | mint (install : Install) (check : CheckCode) (draws : List (List UInt8)) (tailBytes : List UInt8)
  | cancel (id : String)
  | probe (install : Install) (id : Option String) (authorization : Option String)
  | pair (install : Install) (input : Option PairInput) (grantId token : String)

/-- A call and the readings of the clock during it, in order. -/
structure Call where
  op : Op
  now : Nat → Int

inductive Reply where
  | mint (reply : MintReply)
  | cancel
  | probe (reply : ProbeReply)
  | pair (reply : PairReply)
deriving DecidableEq

def step (sha : String → String) (file : Grants) (call : Call) : Grants × Reply :=
  match call.op with
  | .mint install check draws tailBytes =>
    let (file, reply) := mintCode sha install check draws tailBytes call.now file
    (file, .mint reply)
  | .cancel id => (cancelCode id file, .cancel)
  | .probe install id authorization =>
    let (file, reply) := probePair install id authorization call.now file
    (file, .probe reply)
  | .pair install input grantId token =>
    let (file, reply) := pairIncoming sha install input grantId token call.now file
    (file, .pair reply)

end Delegatus.PairingCodes
