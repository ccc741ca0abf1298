import Caplets.KeyedChain
import Caplets.Structures

/-!
# Capability tokens and identity tokens

`CapabilityToken` and `IdentityToken` of `caplets.h`. The tag of a token is a MAC over the
printed text of its last element, keyed with the tag before, from `SECRET` on.

The MAC itself is not part of the repository. `Mac` is any function with what the sources
rely on : `compute_mac` prints the 32 bytes of `HMAC(SHA-256)` with `Botan::hex_encode`,
so every tag has 64 digits, upper-case hexadecimal.
-/

namespace Caplets

open Delimited

/-- `SECRET` of `secrets.h`, the key of every first tag. -/
def SECRET : Str :=
  "1381474419416015159881009014722124198030212204789524522496131916822017114162235105".toList

/-- The first message of every identity token. -/
def IDENTITY_TOKEN_DUMMY_BODY : Str := "DummyBody".toList

/-- The marker in front of every frame. -/
def frameMarker : Str := "%FRAME%".toList

/-! ## The MAC -/

/-- 64 upper-case hexadecimal digits. -/
def IsTag (s : Str) : Prop :=
  s.length = 64 ∧ ∀ c ∈ s, c ∈ "0123456789ABCDEF".toList

instance (s : Str) : Decidable (IsTag s) :=
  inferInstanceAs (Decidable (_ ∧ _))

/-- `util::compute_mac` : a keyed function with tags as outputs. -/
structure Mac where
  /-- The MAC of a message under a key. -/
  computeMac : Str → Str → Str
  isTag : ∀ msg key, IsTag (computeMac msg key)

/-- The digit `n % 16`. -/
def hexDigit (n : ℕ) : Char :=
  "0123456789ABCDEF".toList.getD (n % 16) '0'

/-- The digits are upper-case. -/
theorem hexDigit_mem (n : ℕ) : hexDigit n ∈ "0123456789ABCDEF".toList := by
  have hmem : ∀ i < 16, "0123456789ABCDEF".toList.getD i '0' ∈ "0123456789ABCDEF".toList := by
    decide
  exact hmem _ (Nat.mod_lt n (by decide))

/-- `Botan::hex_encode` of 32 bytes, given as one number. -/
def hexEncode (n : ℕ) : Str :=
  (List.range 64).reverse.map fun i => hexDigit (n >>> (4 * i))

/-- Recorded outputs are tags. -/
theorem isTag_hexEncode (n : ℕ) : IsTag (hexEncode n) := by
  refine ⟨by simp [hexEncode], fun c hc => ?_⟩
  obtain ⟨i, -, rfl⟩ := List.mem_map.1 hc
  exact hexDigit_mem _

/-- The MAC with the recorded outputs of `table`, and one tag for all other arguments. -/
def Mac.ofTable (table : List ((Str × Str) × ℕ)) : Mac where
  computeMac msg key := hexEncode ((table.lookup (msg, key)).getD 0)
  isTag _ _ := isTag_hexEncode _

/-- The calls of a chain, written as its messages with the tag after each. -/
def recordChain : Str → List (Str × ℕ) → List ((Str × Str) × ℕ)
  | _, [] => []
  | key, (msg, tag) :: rest => ((msg, key), tag) :: recordChain (hexEncode tag) rest

/-- The MAC with recorded chains, each from `SECRET` on. -/
def Mac.ofChains (chains : List (List (Str × ℕ))) : Mac :=
  .ofTable (chains.flatMap (recordChain SECRET))

/-! ## Identity tokens -/

/-- The fields of `IdentityToken`, with the `tag` it inherits from `Token`. -/
structure IdentityToken where
  tag : Str
  identityToken : Str
  requestTag : Str
  deriving DecidableEq, Repr

namespace IdentityToken

/-- `IdentityToken id_token;`. -/
def empty : IdentityToken := ⟨[], [], []⟩

/-- `set_tag(tag)`. The ends are trimmed. -/
def setTag (self : IdentityToken) (tag : Str) : IdentityToken :=
  { self with tag := trim tag }

/-- `to_string(contain_tag)`. The request tag is not printed. -/
def toString (self : IdentityToken) (containTag : Bool) : Str :=
  (if containTag then self.tag else []) ++ frameMarker ++ IDENTITY_TOKEN_DUMMY_BODY ++
    if self.identityToken = [] then [] else frameMarker ++ self.identityToken

variable (mac : Mac)

/-- `create_initial_token()`. The text is returned, the tag is stored. -/
def createInitialToken (self : IdentityToken) : IdentityToken × Str :=
  let self := self.setTag (mac.computeMac IDENTITY_TOKEN_DUMMY_BODY SECRET)
  (self, self.tag ++ frameMarker ++ IDENTITY_TOKEN_DUMMY_BODY)

/-- `add_identity_token(id_token)`. The identity replaces the one before, the tag goes on from
it. -/
def addIdentityToken (self : IdentityToken) (idToken : Str) : IdentityToken :=
  { self with identityToken := idToken }.setTag (mac.computeMac idToken self.tag)

/-- The new tag is returned with the token text, and not stored. -/
def addRequestTag (self : IdentityToken) (requestTag : Str) : Str :=
  mac.computeMac requestTag self.tag ++ frameMarker ++ IDENTITY_TOKEN_DUMMY_BODY ++
    frameMarker ++ self.identityToken ++ frameMarker ++ requestTag

/-- `is_valid_signature()`, the chain over the three messages against the stored tag. -/
def isValidSignature (self : IdentityToken) : Bool :=
  let newTag := mac.computeMac IDENTITY_TOKEN_DUMMY_BODY SECRET
  let newTag := mac.computeMac self.identityToken newTag
  let newTag := mac.computeMac self.requestTag newTag
  strcmpEq newTag self.tag

end IdentityToken

/-! ## The text of a token -/

/-- `str_token.substr(0, str_token.find("%FRAME%", 0))`. -/
def tagText (strToken : Str) : Str :=
  match find? frameMarker strToken with
  | some n => strToken.take n
  | none => strToken

/-- The vector `str_frames`. If there is no marker, `find` returns the largest `size_t` and
adding 7 gives 6. -/
def strFrames (strToken : Str) : Except Fault (List Str) := do
  let start := match find? frameMarker strToken with
    | some n => n + 7
    | none => 6
  let text ← substr strToken start strToken.length
  return splitString [] text frameMarker

/-- The loop of `IdentityToken::from_string` over the frames. -/
def IdentityToken.fromString (self : IdentityToken) (strToken : Str) :
    Except Fault IdentityToken := do
  let self := self.setTag (tagText strToken)
  let strFrames ← strFrames strToken
  let self := match strFrames[1]? with
    | some frame => { self with identityToken := frame }
    | none => self
  let self := match strFrames[2]? with
    | some frame => { self with requestTag := frame }
    | none => self
  return self

/-! ## Capability tokens -/

/-- The fields of `CapabilityToken`. `request` is a pointer, `none` stands for `NULL`. -/
structure CapabilityToken where
  tag : Str
  body : List Element
  request : Option Request
  deriving DecidableEq, Repr

namespace CapabilityToken

/-- `CapabilityToken token;`. -/
def empty : CapabilityToken := ⟨[], [], none⟩

/-- `set_tag(tag)`. -/
def setTag (self : CapabilityToken) (tag : Str) : CapabilityToken :=
  { self with tag := trim tag }

/-- `to_string(contain_tag)`, a marker in front of every element. -/
def toString (self : CapabilityToken) (containTag : Bool) : Str :=
  (if containTag then self.tag else []) ++
    self.body.flatMap fun e => frameMarker ++ e.toString

section

variable (mac : Mac)

/-- `update_tag(true)`. The key is `SECRET` if the body has one element. -/
def updateTag (self : CapabilityToken) : Except Fault CapabilityToken :=
  match self.body.getLast? with
  | none => .error .badIndex
  | some last =>
    if self.body.length = 1 then .ok (self.setTag (mac.computeMac last.toString SECRET))
    else .ok (self.setTag (mac.computeMac last.toString self.tag))

/-- `add_frame(frame)`. The pointer may be one to a `Request`. -/
def addFrame (self : CapabilityToken) (frame : Element) : Except Fault CapabilityToken :=
  { self with body := self.body ++ [frame] }.updateTag mac

/-- `set_request(request, update_tag)`. The pointer is stored as it is, `NULL` included. -/
def setRequest (self : CapabilityToken) (request : Option Request) (updateTag : Bool) :
    Except Fault CapabilityToken :=
  let self := { self with request }
  if updateTag then self.updateTag mac else .ok self

/-- The loop of `from_string_no_tag` from its `i`-th frame on. -/
def addElements (stale : ℕ → ℕ → CapabilityType) (calcTag hasRequest : Bool) :
    ℕ → CapabilityToken → List Str → Except Fault CapabilityToken
  | _, self, [] => .ok self
  | i, self, str :: strFrames =>
    if hasRequest && !strFrames.isEmpty || !hasRequest then do
      let frame ← Frame.empty.fromString (stale i) str
      let self ←
        if calcTag then self.addFrame mac (.frame frame)
        else .ok { self with body := self.body ++ [.frame frame] }
      addElements stale calcTag hasRequest (i + 1) self strFrames
    else do
      let request ← Request.empty.fromString str
      let self := { self with request := some request }
      let self := { self with body := self.body ++ [.request request] }
      let self ← if calcTag then self.updateTag mac else .ok self
      addElements stale calcTag hasRequest (i + 1) self strFrames

/-- `from_string_no_tag(str_token, calc_tag)`. The last piece decides whether there is a request.
If there is no piece, the index of the last one is out of range. -/
def fromStringNoTag (stale : ℕ → ℕ → CapabilityType) (self : CapabilityToken) (strToken : Str)
    (calcTag : Bool) : Except Fault CapabilityToken := do
  let strFrames ← strFrames strToken
  match strFrames.getLast? with
  | none => .error .badIndex
  | some last =>
    let hasRequest := decide (0 ≤ findIndex last requestMarker)
    self.addElements mac stale calcTag hasRequest 0 strFrames

/-- `from_string(str_token, calc_tag)`. The tag is taken from the text unless it is calculated. -/
def fromString (stale : ℕ → ℕ → CapabilityType) (self : CapabilityToken) (strToken : Str)
    (calcTag : Bool) : Except Fault CapabilityToken :=
  let self := if !calcTag then self.setTag (tagText strToken) else self
  self.fromStringNoTag mac stale strToken calcTag

/-- `is_valid_signature()`, the chain over the printed elements against the stored tag. -/
def isValidSignature (self : CapabilityToken) : Bool :=
  let calculatedTag := self.body.foldl (fun tag e => mac.computeMac e.toString tag) SECRET
  strcmpEq calculatedTag self.tag

end

end CapabilityToken

/-- `constraint.is_valid_constraint(token)`. The token is the identity token presented, or
`nullptr`. -/
def Constraint.isValidConstraint (self : Constraint) (token : Option IdentityToken) : Bool :=
  if strcmpEq self.function "identity_constraint".toList then
    match token, self.parameters with
    | some idToken, [parameter] => strcmpEq idToken.identityToken parameter
    | _, _ => false
  else true

namespace CapabilityToken

/-- The loop of `is_valid_derivation` over the elements from the second on, each with the
element before it. The flag is `identity_constraint_checked`. -/
def derivationLoop (token : Option IdentityToken) : Bool → List Element → Bool
  | checked, prev :: cur :: rest =>
    if !(cur.getCapabilities.all fun lessPermissive =>
        prev.getCapabilities.any fun permissive => covered lessPermissive permissive) then
      false
    else if !checked && decide (prev.getConstraints.length > 0) then
      if prev.getConstraints.all (·.isValidConstraint token) then
        derivationLoop token true (cur :: rest)
      else false
    else derivationLoop token checked (cur :: rest)
  | _, _ => true

/-- `is_valid_derivation(token)`. A body of one element is not looked into. -/
def isValidDerivation (self : CapabilityToken) (token : Option IdentityToken) : Bool :=
  if self.body.length = 0 then false
  else if self.body.length = 1 then true
  else derivationLoop token false self.body

section

variable (mac : Mac)

/-- `is_valid_token(token)`. -/
def isValidToken (self : CapabilityToken) (token : Option IdentityToken) : Bool :=
  self.isValidSignature mac && self.isValidDerivation token

/-- `is_valid_identity_token(token)`, three tests in a row. -/
def isValidIdentityToken (self : CapabilityToken) (idToken : IdentityToken) : Bool :=
  if idToken.identityToken.length = 0 ∨ idToken.requestTag.length = 0 ∨
      idToken.tag.length = 0 then
    false
  else if !strcmpEq idToken.requestTag self.tag then false
  else idToken.isValidSignature mac

/-- The flag `continue_validation` of `is_valid_request`. -/
def continueValidation (self : CapabilityToken) : Option IdentityToken → Bool
  | none => self.isValidToken mac none
  | some idToken => self.isValidIdentityToken mac idToken && self.isValidToken mac (some idToken)

/-- `body[i]` with an `int` index. -/
def bodyAt (self : CapabilityToken) (i : ℤ) : Except Fault Element :=
  if 0 ≤ i then vecAt self.body i.toNat else .error .badIndex

/-- `is_valid_request(token)`. The last two elements are taken from the body as they are, if the
tokens are valid. -/
def isValidRequest (self : CapabilityToken) (token : Option IdentityToken) :
    Except Fault Bool :=
  if self.continueValidation mac token then do
    let bodySize : ℤ := self.body.length
    let prev ← self.bodyAt (bodySize - 2)
    let last ← self.bodyAt (bodySize - 1)
    let request ← last.asRequest
    return prev.getCapabilities.any fun permissive => covered request.capability permissive
  else .ok false

/-- `is_valid_request_cspot(token, operation_bits)`. The request is the one in the field. -/
def isValidRequestCspot (self : CapabilityToken) (token : Option IdentityToken)
    (operationBits : BitVec 3) : Except Fault Bool := do
  if ← self.isValidRequest mac token then
    match self.request with
    | some request => return isCapBitsValid request.capability.capBits operationBits
    | none => .error .nullPointer
  else return false

end

end CapabilityToken

/-! ## A token and its identity token -/

/-- The tag of `delegatedBody`. -/
def delegatedTag : Str :=
  hexEncode 0x6D19C7904B0E0B5FBC6B07E0B07D3909C55B617A89A2794730A3D2B55D97CABD

/-- The text of two frames, the first for one user only, and a request. -/
def delegatedBody : Str :=
  ("%FRAME%/a+0+111$FUNCTION:identity_constraint:alice%FRAME%/a/b+0+001" ++
    "%FRAME%request:/a/b:h:v:001").toList

/-- The first frame, for `alice` only. -/
def delegatedRoot : Frame :=
  ⟨[⟨"/a".toList, .deviceCap, 0b111⟩], [⟨"identity_constraint".toList, ["alice".toList]⟩]⟩

/-- Both frames, the second one for reading below the first. -/
def delegatedFrames : List Frame :=
  [delegatedRoot, ⟨[⟨"/a/b".toList, .deviceCap, 0b001⟩], []⟩]

/-- A request to read what the second frame is about. -/
def delegatedRequest : Request :=
  ⟨⟨"/a/b".toList, .deviceCap, 0b001⟩, ['h'], ['v']⟩

/-- What `delegatedBody` is read as. -/
def delegatedToken : CapabilityToken :=
  ⟨delegatedTag, delegatedFrames.map .frame ++ [.request delegatedRequest], some delegatedRequest⟩

/-- The identity token that `alice` sends with it. -/
def delegatedIdentity : IdentityToken where
  tag := hexEncode 0x9B7B054A8D911AD9FBEEBC45262D67C13EACBFB496F7DA13D8C62E1A37D7E3E2
  identityToken := "alice".toList
  requestTag := delegatedTag

/-- HMAC(SHA-256) as far as the two tokens go. -/
def delegatedMac : Mac :=
  .ofChains
    [[("/a+0+111$FUNCTION:identity_constraint:alice".toList,
        0xABE361F7E96E24BA8C30E445774027A96B0120436258F15C699225BAA36C7282),
      ("/a/b+0+001".toList,
        0xC54BB0427A58A9440DB2C54981F054DC161C8519B3C65B7DBB626F9792243A14),
      ("request:/a/b:h:v:001".toList,
        0x6D19C7904B0E0B5FBC6B07E0B07D3909C55B617A89A2794730A3D2B55D97CABD)],
     [("DummyBody".toList, 0xF2CF7EAEA66D6D0B965A8B12D29DFEDA60E43C9E9FB0D09486C67C40EE24F319),
      ("alice".toList, 0xE0E4B0FBD47C733B233F9F2CE8166C1C620D7CD06E9C4169DC66F4805DAF6A72),
      (delegatedTag, 0x9B7B054A8D911AD9FBEEBC45262D67C13EACBFB496F7DA13D8C62E1A37D7E3E2)]]

/-- The token is received. -/
theorem fromString_delegatedBody :
    CapabilityToken.empty.fromString delegatedMac (fun _ _ => .ownerCap)
      (delegatedTag ++ delegatedBody) false = .ok delegatedToken := by
  decide +kernel

/-- The token is minted. -/
theorem fromString_delegatedBody_true :
    CapabilityToken.empty.fromString delegatedMac (fun _ _ => .ownerCap) delegatedBody true =
      .ok delegatedToken := by
  decide +kernel

/-- The request is accepted from `alice`. -/
theorem isValidRequest_delegatedToken :
    delegatedToken.isValidRequest delegatedMac (some delegatedIdentity) = .ok true := by
  decide +kernel

end Caplets
