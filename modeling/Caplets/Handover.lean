import Caplets.Attaching
import Caplets.EndToEnd
import Caplets.Identities
import Caplets.Server

/-!
# Delegation through several hands

The first holder mints a token of frames. Every further one parses the text that it is given,
adds frames and prints the token again. The last one adds a request, and a user who was
enrolled and has handed her identity token around sends it with the tag.

Handing over loses nothing (`passOn_eq`), so the server reads what would have been minted at
once. It answers `true` exactly if the user goes by one identity, the frames are usable for it
and the last of them covers the request (`deliverThrough_iff`). No step faults.
-/

namespace Caplets

open Delimited KeyedChain

/-- A holder, with the frames that are added. -/
structure Holder where
  stale : ℕ → ℕ → CapabilityType
  frames : List Frame

section Steps

variable (mac : Mac)

/-- `add_frame` for each frame. -/
def CapabilityToken.addFrames (self : CapabilityToken) (fs : List Frame) :
    Except Fault CapabilityToken :=
  (fs.map Element.frame).foldlM (fun t e => t.addFrame mac e) self

/-- The text is parsed and frames are added. -/
def Holder.receive (h : Holder) (text : Str) : Except Fault CapabilityToken := do
  let token ← CapabilityToken.empty.fromString mac h.stale text false
  token.addFrames mac h.frames

/-- A token goes as text from holder to holder. -/
def passOn (token : CapabilityToken) (holders : List Holder) : Except Fault CapabilityToken :=
  holders.foldlM (fun token h => h.receive mac (token.toString true)) token

/-- A request with a token that was minted with the frames `root` and passed on, for a user who
did `uses` with her identity token. -/
def deliverThrough (stale : ℕ → ℕ → CapabilityType) (root : List Frame) (holders : List Holder)
    (request : Request) (uses : List IdentityToken.Use) : Except Fault Bool := do
  let minted ← CapabilityToken.empty.addFrames mac root
  let held ← passOn mac minted holders
  let sent ← held.addFrame mac (.request request)
  let user ← IdentityToken.life mac uses
  serve mac stale (sent.toString true) (user.addRequestTag mac sent.tag)

/-- The token that is minted with frames. -/
def framesToken (fs : List Frame) : CapabilityToken :=
  ⟨mac.bodyTag (fs.map .frame), fs.map .frame, none⟩

end Steps

/-- The frames of all holders. -/
def allFrames (root : List Frame) (holders : List Holder) : List Frame :=
  root ++ holders.flatMap Holder.frames

variable {mac : Mac} {stale : ℕ → ℕ → CapabilityType} {fs gs root : List Frame}
  {holders : List Holder} {r : Request} {uses : List IdentityToken.Use}

theorem Unmarked.append (hfs : Unmarked fs) (hgs : Unmarked gs) : Unmarked (fs ++ gs) := by
  intro f hf
  rw [Option.mem_def, List.getLast?_append, Option.or_eq_some_iff] at hf
  rcases hf with hf | ⟨-, hf⟩
  · exact hgs f hf
  · exact hfs f hf

/-! ## Passing on -/

theorem addFrames_empty (hfs : fs ≠ []) :
    CapabilityToken.empty.addFrames mac fs = .ok (framesToken mac fs) :=
  foldlM_addFrame_empty (by simpa using hfs)

theorem addFrames_framesToken (hfs : fs ≠ []) (gs : List Frame) :
    (framesToken mac fs).addFrames mac gs = .ok (framesToken mac (fs ++ gs)) := by
  have hbody : (framesToken mac fs).body ≠ [] := by simpa [framesToken] using hfs
  refine (CapabilityToken.foldlM_addFrame hbody _).trans ?_
  rw [framesToken, framesToken, List.map_append, mac.bodyTag_append]

/-- What is handed over arrives. -/
theorem fromString_framesToken (hfs : fs ≠ []) (honest : ∀ f ∈ fs, f.Honest)
    (hmark : Unmarked fs) :
    CapabilityToken.empty.fromString mac stale ((framesToken mac fs).toString true) false =
      .ok (framesToken mac fs) :=
  fromString_honest (by simp [framesToken]) (by simpa [framesToken] using hfs)
    (mac.isTag_bodyTag (by simpa using hfs)) honest (by simp) fun _ => hmark

theorem Holder.receive_framesToken (h : Holder) (hfs : fs ≠ []) (honest : ∀ f ∈ fs, f.Honest)
    (hmark : Unmarked fs) : h.receive mac ((framesToken mac fs).toString true) =
      .ok (framesToken mac (fs ++ h.frames)) := by
  rw [Holder.receive, bind_eq_ok]
  exact ⟨_, fromString_framesToken hfs honest hmark, addFrames_framesToken hfs _⟩

/-- However many holders there are, the last one has what is minted with all frames at once. -/
theorem passOn_eq (hfs : fs ≠ []) (honest : ∀ f ∈ allFrames fs holders, f.Honest)
    (hmark : Unmarked fs) (hholders : ∀ h ∈ holders, Unmarked h.frames) :
    passOn mac (framesToken mac fs) holders = .ok (framesToken mac (allFrames fs holders)) := by
  induction holders generalizing fs with
  | nil =>
    rw [allFrames, List.flatMap_nil, List.append_nil]
    rfl
  | cons h holders ih =>
    have hall : allFrames fs (h :: holders) = allFrames (fs ++ h.frames) holders := by
      rw [allFrames, allFrames, List.flatMap_cons, List.append_assoc]
    have hreceive : h.receive mac ((framesToken mac fs).toString true) =
        .ok (framesToken mac (fs ++ h.frames)) :=
      h.receive_framesToken hfs (fun f hf => honest f (List.mem_append_left _ hf)) hmark
    rw [hall] at honest ⊢
    rw [passOn, List.foldlM_cons, bind_eq_ok]
    exact ⟨_, hreceive, ih (by simp [hfs]) honest (hmark.append (hholders h List.mem_cons_self))
      fun h hh => hholders h (List.mem_cons_of_mem _ hh)⟩

/-! ## The answer -/

/-- It is never answered with a fault. -/
theorem exists_answer_tokenFor (token : Option IdentityToken) (hfs : fs ≠ []) :
    ∃ b, (tokenFor mac fs r).isValidRequest mac token = .ok b := by
  by_cases hcont : (tokenFor mac fs r).continueValidation mac token = true
  · obtain ⟨gs, f, rfl⟩ := (List.eq_nil_or_concat' fs).resolve_left hfs
    have hbody : (tokenFor mac (gs ++ [f]) r).body = gs.map .frame ++ [.frame f, .request r] := by
      simp [tokenFor]
    exact ⟨_, CapabilityToken.isValidRequest_of_body hbody hcont⟩
  · exact ⟨false, CapabilityToken.isValidRequest_of_not hcont⟩

/-- `add_frame` appends a request to the body, but does not store it. -/
theorem addFrame_framesToken (hfs : fs ≠ []) (r : Request) :
    (framesToken mac fs).addFrame mac (.request r) =
      .ok { tokenFor mac fs r with request := none } := by
  have hbody : (framesToken mac fs).body ≠ [] := by simpa [framesToken] using hfs
  rw [CapabilityToken.addFrame_eq, CapabilityToken.linkKey, if_neg hbody, tokenFor,
    mac.bodyTag_append]
  rfl

/-- The answer at the end. Every step before it completes, and the server answers `true`
exactly if the user's token stands for one identity, this identity can use the frames of all
holders, and the last frame covers the request. -/
theorem deliverThrough_iff (stale : ℕ → ℕ → CapabilityType) (hroot : root ≠ [])
    (honest : ∀ f ∈ allFrames root holders, f.Honest) (hmark : Unmarked root)
    (hholders : ∀ h ∈ holders, Unmarked h.frames) (hr : r.Honest) (huses : ∀ u ∈ uses, u.Plain)
    (hfree : CollisionFree mac.computeMac (IdentityToken.requestQueries mac
      (IdentityToken.history uses) (tokenFor mac (allFrames root holders) r).tag)) :
    ∃ answer, deliverThrough mac stale root holders r uses = .ok answer ∧ (answer = true ↔
      (IdentityToken.history uses).links = [(IdentityToken.history uses).identity] ∧
        Usable (allFrames root holders)
          (some (.withIdentity (IdentityToken.history uses).identity)) ∧
          ∃ f ∈ (allFrames root holders).getLast?, ∃ c ∈ f.capabilities,
            covered r.capability c = true) := by
  have hall : allFrames root holders ≠ [] := by simp [allFrames, hroot]
  have htag : IsTag (tokenFor mac (allFrames root holders) r).tag := mac.isTag_bodyTag (by simp)
  obtain ⟨i, hi, hfollows⟩ : ∃ i, IdentityToken.life mac uses = .ok i ∧
      IdentityToken.Follows mac i (IdentityToken.history uses) :=
    IdentityToken.exists_life huses
  have hparsed := IdentityToken.fromString_addRequestTag_of_follows hfollows htag.ne_nil
    (htag.not_mem (by decide)) .empty
  have hid := IdentityToken.isValidIdentityToken_iff_of_follows hfollows htag.ne_nil hfree
  obtain ⟨answer, hanswer⟩ := exists_answer_tokenFor (r := r) (some _) hall
  refine ⟨answer, ?_, ?_⟩
  · simp only [deliverThrough, serve, bind_eq_ok]
    exact ⟨_, addFrames_empty hroot, _, passOn_eq hroot honest hmark hholders, _,
      addFrame_framesToken hall r, i, hi, _, fromString_tokenFor honest hr, _, hparsed, hanswer⟩
  · rw [← Except.ok.injEq answer true, ← hanswer, isValidRequest_iff_of_body rfl,
      CapabilityToken.IdentityAccepted]
    simp only [Option.mem_some_iff, forall_eq', hid, isValidSignature_tokenFor, true_and]
    exact and_congr_right fun _ => and_congr_left fun _ =>
      ⟨fun h => h.congr rfl, fun h => h.congr rfl⟩

/-- The delegated token, with its second frame added by another holder. -/
def delegatedHolders : List Holder :=
  [⟨fun _ _ => .ownerCap, delegatedFrames.drop 1⟩, ⟨fun _ _ => .userCap, []⟩]

theorem deliverThrough_delegated : deliverThrough delegatedMac (fun _ _ => .userCap)
    [delegatedRoot] delegatedHolders delegatedRequest IdentityToken.delegatedUses = .ok true := by
  have hfree : CollisionFree delegatedMac.computeMac (IdentityToken.requestQueries delegatedMac
      (IdentityToken.history IdentityToken.delegatedUses)
        (tokenFor delegatedMac (allFrames [delegatedRoot] delegatedHolders) delegatedRequest).tag)
      := by
    decide +kernel
  obtain ⟨answer, hanswer, hiff⟩ := deliverThrough_iff (fun _ _ => .userCap)
    (List.cons_ne_nil delegatedRoot []) (by decide +kernel) (by decide +kernel)
    (by decide +kernel) HonestRun.delegated.request_honest (by decide +kernel) hfree
  have husable : Usable (allFrames [delegatedRoot] delegatedHolders)
      (some (.withIdentity (IdentityToken.history IdentityToken.delegatedUses).identity)) :=
    HonestRun.delegated.usable _ rfl
  rw [hiff.2 ⟨rfl, husable, by decide +kernel⟩] at hanswer
  exact hanswer

end Caplets
