import OpenSer.Tm.TransRun

/-!
# What the functions on a transaction do

* `whichCancel_eq`: the selection for a CANCEL changes branches only.
* `tShouldRelayResponse_decided`: the decisions of `t_should_relay_response`, one constructor each (`Decided`).
* `Trans.picked_cases`: how the failure logic of a picked branch ends.
* `pick_branch_exact`: the branch that `t_pick_branch` chooses.
* `tForwardNonack_spec`: forwarding leaves the branches there are alone, and every new one has a live FR timer or is on
  record as unsent.
-/

namespace OpenSer.Tm

open List OpenSer.Tm.Trans UaClient Function Nat

variable {t : Trans} {b code x : Nat} {reply : UacReply} (status : Nat) (built : Bool) {α : Type} {lowest : Trans.Pick}
  {cancelled : Bool}

@[simp] theorem mem_branches : b ∈ t.branches ↔ t.firstBranch ≤ b ∧ b < t.nrOfOutgoings := by
  rw [branches, mem_range'_1]
  omega

theorem modify_uac_self (f : UaClient → UaClient) : (t.modify b f).uac b = f (t.uac b) := Function.update_self ..

theorem modify_uac_ne (f : UaClient → UaClient) (hx : x ≠ b) : (t.modify b f).uac x = t.uac x :=
  update_of_ne hx ..

theorem setFr_uac_self (avp : Bool) : (t.setFr avp b).uac b = { t.uac b with frTimer := (t.uac b).frTimer.setTimer } :=
  modify_uac_self (t := t) fun uac => { uac with frTimer := uac.frTimer.setTimer }

theorem setFr_uac_ne (avp : Bool) (hx : x ≠ b) : (t.setFr avp b).uac x = t.uac x :=
  modify_uac_ne (t := t) (fun uac => { uac with frTimer := uac.frTimer.setTimer }) hx

theorem update_proj (g : UaClient → α) {uac : Nat → UaClient} {v : UaClient} (hv : g v = g (uac b)) (x : Nat) :
    g (update uac b v x) = g (uac x) := by
  by_cases hx : x = b
  · rw [hx, update_self, hv]
  · rw [update_of_ne hx]

theorem modify_uac_proj (g : UaClient → α) {f : UaClient → UaClient} (hf : g (f (t.uac b)) = g (t.uac b))
    (x : Nat) : g ((t.modify b f).uac x) = g (t.uac x) := update_proj g hf x

/-! ## Cancelling and answering -/

theorem cleanupUacTimers_uac_proj (g : UaClient → α) (hg : ∀ uac tl, g { uac with frTimer := tl } = g uac)
    (x : Nat) : g (t.cleanupUacTimers.uac x) = g (t.uac x) := by
  show g (if x ∈ t.branches then { t.uac x with frTimer := (t.uac x).frTimer.resetTimer } else t.uac x) = _
  split
  · exact hg _ _
  · rfl

theorem cancelBranch_uac_proj (g : UaClient → α)
    (hg : ∀ uac : UaClient, g { uac with localCancel := .built } = g uac) (built : Bool) (x : Nat) :
    g ((t.cancelBranch built b).uac x) = g (t.uac x) := by
  unfold cancelBranch
  split
  · show g ((t.modify b fun uac => { uac with localCancel := .built }).uac x) = _
    exact modify_uac_proj g (hg _) x
  · rfl

theorem cancelDelayed_uac_proj (g : UaClient → α)
    (hg : ∀ uac : UaClient, g { uac with localCancel := .built } = g uac)
    (hg' : ∀ uac : UaClient, g { uac with toCancel := false } = g uac) (status : Nat) (built : Bool) (x : Nat) :
    g ((t.cancelDelayed b status built).uac x) = g (t.uac x) := by
  unfold cancelDelayed
  split
  · refine (modify_uac_proj g (hg' _) x).trans ?_
    split
    · exact cancelBranch_uac_proj g hg built x
    · rfl
  · rfl

theorem cancelBranch_eq : ∃ uac cancels aborted, t.cancelBranch built b =
    { t with uac := uac, cancels := cancels, aborted := aborted } := by
  unfold cancelBranch
  split
  · exact ⟨_, _, _, rfl⟩
  · exact ⟨_, _, _, rfl⟩

theorem cancelDelayed_eq : ∃ uac cancels aborted, t.cancelDelayed b status built =
    { t with uac := uac, cancels := cancels, aborted := aborted } := by
  unfold cancelDelayed
  split
  · split
    · obtain ⟨uac, cancels, aborted, heq⟩ := cancelBranch_eq (t := t) (b := b) built
      rw [heq]
      exact ⟨_, _, _, rfl⟩
    · exact ⟨_, _, _, rfl⟩
  · exact ⟨_, _, _, rfl⟩

theorem cancelBranch_nr : (t.cancelBranch built b).nrOfOutgoings = t.nrOfOutgoings := by
  obtain ⟨uac, cancels, aborted, heq⟩ := cancelBranch_eq (t := t) (b := b) built
  rw [heq]

theorem cancelDelayed_nr :
    (t.cancelDelayed b status built).nrOfOutgoings = t.nrOfOutgoings := by
  obtain ⟨uac, cancels, aborted, heq⟩ := cancelDelayed_eq (t := t) (b := b) status built
  rw [heq]

theorem cancelDelayed_toCancel : ((t.cancelDelayed b status built).uac b).toCancel = false := by
  unfold cancelDelayed
  split
  case isTrue => rw [modify_uac_self]
  case isFalse h => exact (Bool.not_eq_true _).mp h

theorem shouldCancelBranch_eq (b : Nat) : ∃ uac selected, (t.shouldCancelBranch b).1 =
    { t with uac := uac, selected := selected } := by
  unfold shouldCancelBranch
  dsimp only
  split
  · split
    · exact ⟨_, _, rfl⟩
    · split
      · exact ⟨_, _, rfl⟩
      · exact ⟨_, _, rfl⟩
  · exact ⟨_, _, rfl⟩

theorem whichCancelLoop_eq (bs : List Nat) : ∃ uac selected, (t.whichCancelLoop bs).1 =
    { t with uac := uac, selected := selected } := by
  induction bs generalizing t with
  | nil => exact ⟨t.uac, t.selected, rfl⟩
  | cons b bs ih =>
    obtain ⟨uac, selected, h₁⟩ := shouldCancelBranch_eq (t := t) b
    obtain ⟨uac', selected', h₂⟩ := ih (t := (t.shouldCancelBranch b).1)
    refine ⟨uac', selected', ?_⟩
    exact h₂.trans (by rw [h₁])

theorem whichCancel_eq : ∃ uac selected, t.whichCancel.1 = { t with uac := uac, selected := selected } :=
  whichCancelLoop_eq t.branches

theorem send_setFinalTimer (code : Nat) : t.setFinalTimer.send code = (t.send code).setFinalTimer := by
  unfold setFinalTimer
  split <;> rename_i hc
  · exact (if_pos hc).symm
  · exact (if_neg hc).symm

theorem send_finish {rps : Rps} : (t.finish rps).send code = (t.send code).finish rps := by
  unfold finish
  split
  · exact send_setFinalTimer code
  · rfl

/-! ## The decision -/

/-- A code that is not given up for another one: 487 comes first if the transaction was cancelled, and 503 last. -/
def AtLeast (cancelled : Bool) (code other : Nat) : Prop :=
  cancelled ∧ code = 487 ∨ ¬(cancelled ∧ other = 487) ∧ (other = 503 ∨ code ≠ 503 ∧ code ≤ other)

theorem AtLeast.refl (cancelled : Bool) (code : Nat) : AtLeast cancelled code code := by
  unfold AtLeast
  grind

theorem AtLeast.trans {c d e : Nat} (h₁ : AtLeast cancelled c d) (h₂ : AtLeast cancelled d e) :
    AtLeast cancelled c e := by
  unfold AtLeast at *
  grind

theorem beats_atLeast {b code lowest : Nat} :
    if beats cancelled code (.branch b lowest) then AtLeast cancelled code lowest
      else AtLeast cancelled lowest code := by
  unfold beats AtLeast
  grind

/-- What the loop has chosen among the branches that it has seen. -/
def Trans.Chosen (t : Trans) (seen : List Nat) : Trans.Pick → Prop
  | .pending => False
  | .none => seen = []
  | .branch b code =>
    b ∈ seen ∧ (t.uac b).lastReceived = code ∧ ∀ a ∈ seen, AtLeast t.wasCancelled code (t.uac a).lastReceived

theorem Trans.Chosen.snoc {seen : List Nat} (h : t.Chosen seen lowest) (b : Nat) :
    t.Chosen (seen ++ [b]) (if beats t.wasCancelled (t.uac b).lastReceived lowest then
      .branch b (t.uac b).lastReceived else lowest) := by
  cases lowest with
  | pending => exact h.elim
  | none =>
    cases h
    exact ⟨by simp, rfl, by simpa using AtLeast.refl ..⟩
  | branch a code =>
    obtain ⟨ha, hcode, hbest⟩ := h
    have hbeats := @beats_atLeast t.wasCancelled a (t.uac b).lastReceived code
    split at hbeats
    case isTrue hlt =>
      rw [if_pos hlt]
      refine ⟨by simp, rfl, forall_mem_append.mpr ⟨fun x hx => hbeats.trans (hbest x hx), ?_⟩⟩
      simpa using AtLeast.refl ..
    case isFalse hlt =>
      rw [if_neg hlt]
      exact ⟨mem_append_left _ ha, hcode, forall_mem_append.mpr ⟨hbest, by simpa using hbeats⟩⟩

/-- The loop waits for a branch below 200, or it goes on choosing. -/
theorem pickLoop_chosen {seen bs : List Nat} (h : t.Chosen seen lowest) :
    (∃ b ∈ bs, (t.uac b).buffer ∧ (t.uac b).lastReceived < 200) ∧ t.pickLoop lowest bs = .pending ∨
      (∀ b ∈ bs, (t.uac b).buffer → 200 ≤ (t.uac b).lastReceived) ∧
        t.Chosen (seen ++ bs.filter fun b => (t.uac b).buffer) (t.pickLoop lowest bs) := by
  induction bs generalizing seen lowest with
  | nil => exact .inr ⟨by simp, by simpa [pickLoop] using h⟩
  | cons b bs ih =>
    rw [pickLoop]
    by_cases hbuf : (t.uac b).buffer
    · rw [if_neg (not_not.mpr hbuf)]
      by_cases hlast : (t.uac b).lastReceived < 200
      · rw [if_pos hlast]
        exact .inl ⟨⟨b, by simp, hbuf, hlast⟩, rfl⟩
      · rw [if_neg hlast, ← apply_ite (t.pickLoop · bs)]
        rcases ih (h.snoc b) with ⟨⟨a, ha, hp⟩, hrest⟩ | ⟨hfinal, hrest⟩
        · exact .inl ⟨⟨a, mem_cons_of_mem _ ha, hp⟩, hrest⟩
        · rw [filter_cons, if_pos hbuf]
          exact .inr ⟨forall_mem_cons.mpr ⟨fun _ => not_lt.mp hlast, hfinal⟩, by simpa using hrest⟩
    · rw [if_pos hbuf, filter_cons, if_neg hbuf]
      rcases ih h with ⟨⟨a, ha, hp⟩, hrest⟩ | ⟨hfinal, hrest⟩
      · exact .inl ⟨⟨a, mem_cons_of_mem _ ha, hp⟩, hrest⟩
      · exact .inr ⟨forall_mem_cons.mpr ⟨fun hc => absurd hc hbuf, hfinal⟩, hrest⟩

variable (t) in
theorem tPickBranch_cases :
    (∃ b ∈ t.branches, (t.uac b).buffer ∧ (t.uac b).lastReceived < 200) ∧ t.tPickBranch = .pending ∨
      (∀ b ∈ t.branches, (t.uac b).buffer → 200 ≤ (t.uac b).lastReceived) ∧
        t.Chosen (t.branches.filter fun b => (t.uac b).buffer) t.tPickBranch :=
  pickLoop_chosen (show t.Chosen [] .none from rfl)

theorem tPickBranch_branch {p s : Nat} (h : t.tPickBranch = .branch p s) :
    p ∈ t.branches ∧ (t.uac p).buffer ∧ 200 ≤ (t.uac p).lastReceived := by
  rcases tPickBranch_cases t with ⟨-, hp⟩ | ⟨hfinal, hp⟩ <;> rw [h] at hp
  · cases hp
  · obtain ⟨hmem, hbuf⟩ := mem_filter.mp hp.1
    exact ⟨hmem, hbuf, hfinal p hmem hbuf⟩

theorem tPickBranch_none (h : t.tPickBranch = .none) : ∀ b ∈ t.branches, (t.uac b).buffer = false := by
  rcases tPickBranch_cases t with ⟨-, hp⟩ | ⟨-, hp⟩ <;> rw [h] at hp
  · cases hp
  · have hnil : (t.branches.filter fun b => (t.uac b).buffer) = [] := hp
    simpa using filter_eq_nil_iff.mp hnil

theorem tPickBranch_pending :
    t.tPickBranch = .pending ↔ ∃ b ∈ t.branches, (t.uac b).buffer ∧ (t.uac b).lastReceived < 200 := by
  rcases tPickBranch_cases t with ⟨hex, hp⟩ | ⟨hfinal, hp⟩
  · exact ⟨fun _ => hex, fun _ => hp⟩
  · refine ⟨fun h => ?_, fun ⟨b, hb, hbuf, hlt⟩ => absurd hlt (not_lt.mpr (hfinal b hb hbuf))⟩
    rw [h] at hp
    exact hp.elim

/-- The branch that is to be relayed when all have answered: one with 487 if the transaction was cancelled and there is
one, or else the one with the lowest code but 503, and with 503 only if all have 503. -/
structure Trans.Preferred (t : Trans) (b code : Nat) : Prop where
  mem : b ∈ t.branches
  buffer : (t.uac b).buffer
  received : (t.uac b).lastReceived = code
  cancelled : t.wasCancelled → (∃ a ∈ t.branches, (t.uac a).buffer ∧ (t.uac a).lastReceived = 487) → code = 487
  lowest : ¬(t.wasCancelled ∧ ∃ a ∈ t.branches, (t.uac a).buffer ∧ (t.uac a).lastReceived = 487) →
    ∀ a ∈ t.branches, (t.uac a).buffer → (t.uac a).lastReceived ≠ 503 → code ≤ (t.uac a).lastReceived
  last : code = 503 → ∀ a ∈ t.branches, (t.uac a).buffer → (t.uac a).lastReceived = 503

/-- **The choice of `t_pick_branch`**: it waits exactly when a branch with a request is below 200; otherwise it returns
the preferred one of the branches with a request, and -1 if there is none. -/
theorem pick_branch_exact (t : Trans) :
    (t.tPickBranch = .pending ↔ ∃ b ∈ t.branches, (t.uac b).buffer ∧ (t.uac b).lastReceived < 200) ∧
    match t.tPickBranch with
    | .pending => True
    | .none => ∀ b ∈ t.branches, (t.uac b).buffer = false
    | .branch b code => t.Preferred b code := by
  refine ⟨tPickBranch_pending, ?_⟩
  cases hpick : t.tPickBranch with
  | pending => trivial
  | none => exact tPickBranch_none hpick
  | branch b code =>
    rcases tPickBranch_cases t with ⟨-, hp⟩ | ⟨-, hp⟩ <;> rw [hpick] at hp
    · cases hp
    obtain ⟨hmem, hcode, hbest⟩ := hp
    obtain ⟨hb, hbuf⟩ := mem_filter.mp hmem
    have hall : ∀ a ∈ t.branches, (t.uac a).buffer → AtLeast t.wasCancelled code (t.uac a).lastReceived :=
      fun a ha hbuf => hbest a (mem_filter.mpr ⟨ha, hbuf⟩)
    refine ⟨hb, hbuf, hcode, ?_, fun hno a ha hbuf' hne => ?_, fun h503 a ha hbuf' => ?_⟩
    · rintro hc ⟨a, ha, hbuf', h487⟩
      rcases hall a ha hbuf' with h | h
      · exact h.2
      · exact absurd ⟨hc, h487⟩ h.1
    · rcases hall a ha hbuf' with h | h
      · exact absurd ⟨h.1, b, hb, hbuf, hcode.trans h.2⟩ hno
      · exact (h.2.resolve_left hne).2
    · rcases hall a ha hbuf' with h | h
      · omega
      · exact h.2.resolve_right fun hc => hc.1 h503

/-- A reply is recorded at its branch, where failure handlers find it. -/
def Trans.arrive (t : Trans) (b code : Nat) (reply : UacReply) : Trans := (t.receive b code).setReply b reply

/-- How the failure logic of a picked branch ends, in the state behind it. -/
inductive Picked (t : Trans) (b p cnt : Nat) (bm : List Nat) : Trans.Decision → Prop
  | answered (hs : 200 ≤ t.status) : Picked t b p cnt bm ⟨t.setReply b .null, .completed, false, none, bm⟩
  | extended (hs : t.status < 200) (hn : cnt < t.nrOfOutgoings) :
    Picked t b p cnt bm ⟨t.setReply b .null, .store, true, none, bm⟩
  | relayed (hs : t.status < 200) (hn : t.nrOfOutgoings ≤ cnt) :
    Picked t b p cnt bm ⟨t.setReply b .null, .completed, false, some p, bm⟩

theorem picked_cases (t : Trans) (b p : Nat) (bm : List Nat) (env : Trans.PickEnv) :
    Picked (t.failureLogic p env).1 b p (t.failureLogic p env).2 bm (t.picked b p bm env) := by
  unfold picked
  dsimp only
  split
  case isTrue hs => exact .answered hs
  case isFalse hs =>
    split
    case isTrue hn => exact .extended (not_le.mp hs) hn
    case isFalse hn => exact .relayed (not_le.mp hs) (not_lt.mp hn)

/-- The decisions of `t_should_relay_response`. -/
inductive Decided (t : Trans) (code b : Nat) (reply : UacReply) (env : Trans.PickEnv) : Trans.Decision → Prop
  | through (hs : 200 ≤ t.status) (hinv : t.isInvite) (hlo : 200 ≤ code) (hhi : code < 300) :
    Decided t code b reply env ⟨t.receive b code, .pushedAfterCompletion, false, some b, []⟩
  | finished (hs : 200 ≤ t.status) : Decided t code b reply env ⟨t, .completed, false, none, []⟩
  | discarded (h : 200 ≤ t.status ∨ 200 ≤ (t.uac b).lastReceived ∨ code < 100) : Decided t code b reply env t.discard
  | pending (hs : t.status < 200) (hlast : (t.uac b).lastReceived < 200) (hcode : 300 ≤ code)
    (hpick : (t.arrive b code reply).tPickBranch = .pending) :
    Decided t code b reply env ⟨(t.arrive b code reply).setReply b .null, .store, true, none, []⟩
  | unpicked (hs : t.status < 200) (hlast : (t.uac b).lastReceived < 200) (hcode : 300 ≤ code) (hlt : code < 600)
    (hpick : (t.arrive b code reply).tPickBranch = .none) :
    Decided t code b reply env ((t.arrive b code reply).setReply b .null).discard
  | picked {p lowest} (hs : t.status < 200) (hlast : (t.uac b).lastReceived < 200) (hcode : 300 ≤ code)
    (hlt : code < 600) (hpick : (t.arrive b code reply).tPickBranch = .branch p lowest) :
    Decided t code b reply env ((t.arrive b code reply).picked b p [] env)
  | global (hs : t.status < 200) (hlast : (t.uac b).lastReceived < 200) (hcode : 600 ≤ code) :
    Decided t code b reply env ({ (t.arrive b code reply).whichCancel.1 with noNewBranches := true }.picked b b
      (t.arrive b code reply).whichCancel.2 env)
  | success (hs : t.status < 200) (hlo : 200 ≤ code) (hhi : code < 300) :
    Decided t code b reply env ⟨(t.receive b code).whichCancel.1, .completed, false, some b,
      (t.receive b code).whichCancel.2⟩
  | provisional (hs : t.status < 200) (hlast : (t.uac b).lastReceived < 200) (hlo : 100 ≤ code) (hhi : code < 200) :
    Decided t code b reply env ⟨t.receive b code, .provisional, false, if code = 100 then none else some b, []⟩

theorem tShouldRelayResponse_decided (t : Trans) (code b : Nat) (reply : UacReply) (env : Trans.PickEnv) :
    Decided t code b reply env (t.tShouldRelayResponse code b reply env) := by
  unfold tShouldRelayResponse
  dsimp only
  split
  case isTrue hs =>
    split
    case isTrue hinv => exact .through hs hinv.2.2 hinv.1 hinv.2.1
    case isFalse =>
      split
      case isTrue => exact .finished hs
      case isFalse => exact .discarded (.inl hs)
  case isFalse hs =>
    split
    case isTrue hlast => exact .discarded (.inr (.inl hlast.1))
    case isFalse hlast =>
      split
      case isTrue hcode =>
        have hlast' : (t.uac b).lastReceived < 200 := by
          by_contra hc
          exact hlast ⟨not_lt.mp hc, fun hthrough => absurd hthrough.1.2.1 (not_lt.mpr hcode)⟩
        split
        case isTrue h6 => exact .global (not_le.mp hs) hlast' h6
        case isFalse h6 =>
          split
          case h_1 hpick => exact .pending (not_le.mp hs) hlast' hcode hpick
          case h_2 hpick => exact .unpicked (not_le.mp hs) hlast' hcode (not_le.mp h6) hpick
          case h_3 hpick => exact .picked (not_le.mp hs) hlast' hcode (not_le.mp h6) hpick
      case isFalse hcode =>
        split
        case isTrue h1 =>
          split
          case isTrue h2 =>
            rw [if_neg (show code ≠ 100 by omega)]
            exact .success (not_le.mp hs) h2 (not_le.mp hcode)
          case isFalse h2 =>
            have hlast' : (t.uac b).lastReceived < 200 := by
              by_contra hc
              exact hlast ⟨not_lt.mp hc, fun hthrough => h2 hthrough.1.1⟩
            exact .provisional (not_le.mp hs) hlast' h1 (not_le.mp h2)
        case isFalse h1 => exact .discarded (.inr (.inr (not_le.mp h1)))

/-! ## New branches -/

/-- A branch without what forwarding writes. -/
def UaClient.core (uac : UaClient) : UaClient := { uac with buffer := false, proxy := false, frTimer := .off }

/-- A transaction without what forwarding writes. -/
def Trans.core (t : Trans) : Trans :=
  { t with firstBranch := 0, nrOfOutgoings := 0, uac := fun _ => {}, noisyCtimer := false, unsent := [] }

/-- What adding branches does: those there are stay as they are, and a new one has a live FR timer or is on record as
unsent. -/
structure Extended (t t' : Trans) : Prop where
  core : t'.core = t.core
  le : t.nrOfOutgoings ≤ t'.nrOfOutgoings
  bound : t.nrOfOutgoings ≤ maxBranches → t'.nrOfOutgoings ≤ maxBranches
  first : t'.firstBranch = t.firstBranch ∨ t'.firstBranch = t.nrOfOutgoings
  uac : ∀ b, (t'.uac b).core = (t.uac b).core
  old : ∀ b < t.nrOfOutgoings, t'.uac b = t.uac b
  fresh : ∀ b, t'.nrOfOutgoings ≤ b → (t'.uac b).buffer = (t.uac b).buffer ∧ (t'.uac b).frTimer = (t.uac b).frTimer
  live : ∀ b, t.nrOfOutgoings ≤ b → b < t'.nrOfOutgoings → (t.uac b).frTimer = .off →
    (t'.uac b).frTimer.live ∨ b ∈ t'.unsent
  unsent : ∀ b ∈ t.unsent, b ∈ t'.unsent

theorem Extended.lastReceived {t' : Trans} (he : Extended t t') (b : Nat) :
    (t'.uac b).lastReceived = (t.uac b).lastReceived := by
  have hcore := congrArg UaClient.lastReceived (he.uac b)
  exact hcore

theorem Extended.uacReply {t' : Trans} (he : Extended t t') (b : Nat) : (t'.uac b).reply = (t.uac b).reply := by
  have hcore := congrArg reply (he.uac b)
  exact hcore

theorem addBlindUac_extended (frAvp : Bool) : Extended t (t.addBlindUac frAvp) := by
  unfold addBlindUac
  split
  case isTrue =>
    exact ⟨rfl, le_rfl, id, .inl rfl, fun _ => rfl, fun _ _ => rfl, fun _ _ => ⟨rfl, rfl⟩,
      fun b h₁ h₂ _ => absurd h₂ (not_lt.mpr h₁), fun _ hb => hb⟩
  case isFalse hmax =>
    let t₀ : Trans := { t with noisyCtimer := true, nrOfOutgoings := t.nrOfOutgoings + 1 }
    have hself : (t₀.setFr frAvp t.nrOfOutgoings).uac t.nrOfOutgoings =
      { t.uac t.nrOfOutgoings with frTimer := (t.uac t.nrOfOutgoings).frTimer.setTimer } := setFr_uac_self frAvp
    have hne : ∀ {x : Nat}, x ≠ t.nrOfOutgoings → (t₀.setFr frAvp t.nrOfOutgoings).uac x = t.uac x := setFr_uac_ne frAvp
    refine ⟨rfl, le_succ _, fun hle => lt_of_le_of_ne hle hmax, .inl rfl, fun x => ?_, fun x hx => hne hx.ne,
      fun x hx => ?_, fun x h₁ h₂ hoff => ?_, fun _ hb => hb⟩
    · by_cases hx : x = t.nrOfOutgoings
      · rw [hx, hself]
        rfl
      · rw [hne hx]
    · have hlt : t.nrOfOutgoings < x := hx
      rw [hne hlt.ne']
      exact ⟨rfl, rfl⟩
    · have hx : x = t.nrOfOutgoings := Nat.le_antisymm (Nat.lt_succ_iff.mp h₂) h₁
      subst hx
      rw [hself, hoff]
      exact .inl rfl

structure Added (t t' : Trans) (added : List (Nat × BranchEnv)) : Prop where
  core : t'.core = t.core
  first : t'.firstBranch = t.firstBranch
  unsent : t'.unsent = t.unsent
  le : t.nrOfOutgoings ≤ t'.nrOfOutgoings
  bound : t.nrOfOutgoings ≤ maxBranches → t'.nrOfOutgoings ≤ maxBranches
  uac : ∀ b, (t'.uac b).core = (t.uac b).core
  fr : ∀ b, (t'.uac b).frTimer = (t.uac b).frTimer
  old : ∀ b < t.nrOfOutgoings, t'.uac b = t.uac b
  fresh : ∀ b, t'.nrOfOutgoings ≤ b → (t'.uac b).buffer = (t.uac b).buffer
  mem : ∀ b, t.nrOfOutgoings ≤ b → b < t'.nrOfOutgoings → b ∈ added.map Prod.fst
  range : ∀ b ∈ added.map Prod.fst, t.nrOfOutgoings ≤ b ∧ b < t'.nrOfOutgoings

/-- A failing `add_uac` changes at most the proxy of the next branch. -/
theorem added_proxy (p : UaClient → Bool) : Added t (t.modify t.nrOfOutgoings fun uac =>
    { uac with proxy := p uac }) [] := by
  exact ⟨rfl, rfl, rfl, le_rfl, id, modify_uac_proj core rfl, modify_uac_proj frTimer rfl,
    fun x hx => modify_uac_ne _ hx.ne, fun x _ => modify_uac_proj buffer rfl x,
    fun x h₁ h₂ => absurd h₂ (not_lt.mpr h₁), by simp⟩

variable (env : BranchEnv)

theorem added_new (p : UaClient → Bool) (hmax : t.nrOfOutgoings ≠ maxBranches) : Added t
    { t.modify t.nrOfOutgoings fun uac => { uac with buffer := true, proxy := p uac } with
      nrOfOutgoings := t.nrOfOutgoings + 1 } [(t.nrOfOutgoings, env)] := by
  let f : UaClient → UaClient := fun uac => { uac with buffer := true, proxy := p uac }
  have hne : ∀ {x : Nat}, x ≠ t.nrOfOutgoings → (t.modify t.nrOfOutgoings f).uac x = t.uac x :=
    fun hx => modify_uac_ne f hx
  have hcore : ∀ x, ((t.modify t.nrOfOutgoings f).uac x).core = (t.uac x).core := modify_uac_proj core rfl
  have hfr : ∀ x, ((t.modify t.nrOfOutgoings f).uac x).frTimer = (t.uac x).frTimer := modify_uac_proj frTimer rfl
  refine ⟨rfl, rfl, rfl, le_succ _, fun hle => lt_of_le_of_ne hle hmax, hcore, hfr, fun x hx => hne hx.ne,
    fun x hx => ?_, fun x h₁ h₂ => ?_, fun x hx => ?_⟩
  · have hlt : t.nrOfOutgoings < x := hx
    exact congrArg buffer (hne hlt.ne')
  · exact mem_singleton.mpr (Nat.le_antisymm (Nat.lt_succ_iff.mp h₂) h₁)
  · have hx : x = t.nrOfOutgoings := mem_singleton.mp hx
    exact ⟨hx.ge, Nat.lt_succ_iff.mpr hx.le⟩

theorem addUac_added :
    Added t (t.addUac env.add).1 ((t.addUac env.add).2.toList.map (·, env)) := by
  have hrefl : Added t t [] := by
    exact ⟨rfl, rfl, rfl, le_rfl, id, fun _ => rfl, fun _ => rfl, fun _ _ => rfl, fun _ _ => rfl,
      fun x h₁ h₂ => absurd h₂ (not_lt.mpr h₁), by simp⟩
  unfold addUac
  dsimp only
  split
  case isTrue => exact hrefl
  case isFalse hmax =>
    split
    case isTrue => exact hrefl
    case isFalse =>
      split
      case h_1 => exact hrefl
      case h_2 =>
        split
        · exact hrefl
        · exact added_proxy fun _ => false
      case h_3 =>
        split
        · exact hrefl
        · exact added_proxy fun _ => true
      case h_4 =>
        exact added_new env (fun uac => uac.proxy || !t.noDnsFailover) hmax

theorem Added.trans {t₁ t₂ : Trans} {xs ys : List (Nat × BranchEnv)} (h₁ : Added t t₁ xs) (h₂ : Added t₁ t₂ ys) :
    Added t t₂ (xs ++ ys) where
  core := h₂.core.trans h₁.core
  first := h₂.first.trans h₁.first
  unsent := h₂.unsent.trans h₁.unsent
  le := h₁.le.trans h₂.le
  bound h := h₂.bound (h₁.bound h)
  uac x := (h₂.uac x).trans (h₁.uac x)
  fr x := (h₂.fr x).trans (h₁.fr x)
  old x hx := (h₂.old x (hx.trans_le h₁.le)).trans (h₁.old x hx)
  fresh x hx := (h₂.fresh x hx).trans (h₁.fresh x (h₂.le.trans hx))
  mem x hx hx' := by
    rw [map_append, mem_append]
    by_cases hlt : x < t₁.nrOfOutgoings
    · exact .inl (h₁.mem x hx hlt)
    · exact .inr (h₂.mem x (not_lt.mp hlt) hx')
  range x hx := by
    rw [map_append, mem_append] at hx
    rcases hx with hx | hx
    · exact ⟨(h₁.range x hx).1, (h₁.range x hx).2.trans_le h₂.le⟩
    · exact ⟨h₁.le.trans (h₂.range x hx).1, (h₂.range x hx).2⟩

theorem addUacs_added (envs : List BranchEnv) : Added t (t.addUacs envs).1 (t.addUacs envs).2 := by
  induction envs generalizing t with
  | nil =>
    exact ⟨rfl, rfl, rfl, le_rfl, id, fun _ => rfl, fun _ => rfl, fun _ _ => rfl, fun _ _ => rfl,
      fun x h₁ h₂ => absurd h₂ (not_lt.mpr h₁), by simp [addUacs]⟩
  | cons env envs ih =>
    have hone := addUac_added (t := t) env
    rw [addUacs]
    split
    case h_1 t₁ b heq =>
      rw [heq] at hone
      exact hone.trans ih
    case h_2 t₁ heq =>
      rw [heq] at hone
      exact hone.trans ih

/-! ## Sending -/

structure Sent (t t' : Trans) (added : List (Nat × BranchEnv)) : Prop where
  core : t'.core = t.core
  first : t'.firstBranch = t.firstBranch
  nr : t'.nrOfOutgoings = t.nrOfOutgoings
  uac : ∀ b, (t'.uac b).core = (t.uac b).core
  other : ∀ b, b ∉ added.map Prod.fst → t'.uac b = t.uac b
  keep : ∀ b, (t.uac b).frTimer.live → (t'.uac b).frTimer.live
  live : ∀ b ∈ added.map Prod.fst, (t.uac b).frTimer = .off → (t'.uac b).frTimer.live ∨ b ∈ t'.unsent
  unsent : ∀ b ∈ t.unsent, b ∈ t'.unsent

theorem sendUac_sent : Sent t (t.sendUac b env) [(b, env)] := by
  unfold sendUac
  split
  case isTrue =>
    have hself := setFr_uac_self (t := t) (b := b) env.frAvp
    have hne : ∀ {x : Nat}, x ≠ b → (t.setFr env.frAvp b).uac x = t.uac x := setFr_uac_ne env.frAvp
    refine ⟨rfl, rfl, rfl, fun x => ?_, fun x hx => hne (by simpa using hx), fun x hl => ?_, fun x hx hoff => ?_,
      fun _ hx => hx⟩
    · by_cases hx : x = b
      · rw [hx, hself]
        rfl
      · rw [hne hx]
    · by_cases hx : x = b
      · rw [hx, hself]
        exact FrTimer.live_setTimer (hx ▸ hl)
      · rw [hne hx]
        exact hl
    · have hx : x = b := by simpa using hx
      subst hx
      rw [hself, hoff]
      exact .inl rfl
  case isFalse =>
    refine ⟨rfl, rfl, rfl, fun _ => rfl, fun _ _ => rfl, fun _ h => h, fun x hx _ => .inr ?_,
      fun x hx => mem_cons_of_mem b hx⟩
    exact mem_cons.mpr (.inl (by simpa using hx))

theorem Sent.trans {t₁ t₂ : Trans} {xs ys : List (Nat × BranchEnv)} (h₁ : Sent t t₁ xs) (h₂ : Sent t₁ t₂ ys) :
    Sent t t₂ (xs ++ ys) where
  core := h₂.core.trans h₁.core
  first := h₂.first.trans h₁.first
  nr := h₂.nr.trans h₁.nr
  uac y := (h₂.uac y).trans (h₁.uac y)
  other y hy := by
    rw [map_append, mem_append, not_or] at hy
    exact (h₂.other y hy.2).trans (h₁.other y hy.1)
  keep y hl := h₂.keep y (h₁.keep y hl)
  live y hy hoff := by
    rw [map_append, mem_append] at hy
    by_cases hyx : y ∈ xs.map Prod.fst
    · exact (h₁.live y hyx hoff).imp (h₂.keep y) (h₂.unsent y)
    · refine h₂.live y (hy.resolve_left hyx) ?_
      rw [h₁.other y hyx, hoff]
  unsent y hy := h₂.unsent y (h₁.unsent y hy)

theorem sendUacs_sent (added : List (Nat × BranchEnv)) : Sent t (t.sendUacs added) added := by
  induction added generalizing t with
  | nil => exact ⟨rfl, rfl, rfl, fun _ => rfl, fun _ _ => rfl, fun _ h => h, by simp, fun _ h => h⟩
  | cons x xs ih => exact (sendUac_sent x.2).trans ih

/-- **Forwarding**: the branches that are there stay as they are; each new one has a live FR timer, or is on record. -/
theorem tForwardNonack_spec (envs : List BranchEnv) : Extended t (t.tForwardNonack envs).1 := by
  unfold tForwardNonack
  split
  case isTrue =>
    exact ⟨rfl, le_rfl, id, .inl rfl, fun _ => rfl, fun _ _ => rfl, fun _ _ => ⟨rfl, rfl⟩,
      fun b h₁ h₂ _ => absurd h₂ (not_lt.mpr h₁), fun _ hb => hb⟩
  case isFalse =>
    have h₁ := addUacs_added (t := { t with firstBranch := t.nrOfOutgoings }) envs
    have h₂ := sendUacs_sent (t := ({ t with firstBranch := t.nrOfOutgoings }.addUacs envs).1)
      ({ t with firstBranch := t.nrOfOutgoings }.addUacs envs).2
    dsimp only
    generalize ({ t with firstBranch := t.nrOfOutgoings }.addUacs envs).2 = added at h₁ h₂
    generalize ({ t with firstBranch := t.nrOfOutgoings }.addUacs envs).1 = t₁ at h₁ h₂
    generalize t₁.sendUacs added = t₂ at h₂
    have hnr : t₂.nrOfOutgoings = t₁.nrOfOutgoings := h₂.nr
    have hout : ∀ x, x < t.nrOfOutgoings ∨ t₁.nrOfOutgoings ≤ x → t₂.uac x = t₁.uac x := by
      intro x hx
      refine h₂.other x fun hmem => ?_
      have hr := h₁.range x hmem
      dsimp only at hr
      omega
    refine ⟨h₂.core.trans h₁.core, h₁.le.trans hnr.ge, fun h => hnr.trans_le (h₁.bound h),
      .inr (h₂.first.trans h₁.first),
      fun x => (h₂.uac x).trans (h₁.uac x), fun x hx => (hout x (.inl hx)).trans (h₁.old x hx), fun x hx => ?_,
      fun x hlo hhi hoff => ?_, fun x hx => ?_⟩
    · rw [hout x (.inr (hnr ▸ hx))]
      exact ⟨h₁.fresh x (hnr ▸ hx), h₁.fr x⟩
    · exact h₂.live x (h₁.mem x hlo (hnr ▸ hhi)) ((h₁.fr x).trans hoff)
    · exact h₂.unsent x (h₁.unsent ▸ hx)

end OpenSer.Tm
