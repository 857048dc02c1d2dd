import Mathlib.Algebra.BigOperators.Fin
import OpenSer.Dialog.DlgTable

/-!
# The references to a dialog

The count of a dialog against those who hold a reference: the table, as long as the dialog is not deleted, the
transaction, and the processes. `World.bal` is what nobody holds.

* `Effect.bal_cases`: a step keeps the balance of every dialog, except for a request that does not match.
* `free_of_bal`: with a balance that is not negative, a dialog whose count has come to 0 is deleted, and nobody holds
  it.
* `Effect.ok`: the invariant `World.Ok`, for every way to bound the balance.
-/

namespace OpenSer.Dialog

open Function World Pc Finset Option

/-- The references to a dialog without the one of the table. -/
def Shm.due (m : Shm) (d : Nat) : Int := (m.cells d).ref - if (m.cells d).state = .deleted then 0 else 1

variable {ι : Type} [Fintype ι] {procs : ι → Pc} {ev : DlgEvent}

/-- The references to a dialog that the processes hold. -/
def held (procs : ι → Pc) (d : Nat) : Int := ∑ q, ((procs q).holds d : Int)

/-- The references to a dialog that nobody holds. -/
def World.bal (w : World ι) (d : Nat) : Int := w.shm.due d - (if w.tmcb d then 1 else 0) - held w.procs d

/-- A reference comes with a dialog that is not freed; `B` says what the balance may be. -/
structure World.Ok (B : Int → Prop) (w : World ι) : Prop where
  shm : w.shm.Ok
  tmcb : ∀ d, w.tmcb d → w.shm.Live d
  held : ∀ q d, (w.procs q).dlg = some d → (w.procs q).refs ≠ 0 → w.shm.Live d
  /-- A process without a reference runs for the transaction, or has the dialog from the timer. -/
  prot : ∀ q d, (w.procs q).dlg = some d → (w.procs q).refs = 0 →
    (w.procs q).inTrans ∧ w.tmcb d ∨ w.procs q = .ontimeoutEvent d
  /-- The transaction does not have the reference that `dlg_onreq` has. -/
  onreq : ∀ q d, (w.procs q).onreq → (w.procs q).dlg = some d → w.tmcb d = false
  unique : ∀ q q' d, (w.procs q).onreq → (w.procs q').onreq → (w.procs q).dlg = some d → (w.procs q').dlg = some d →
    q = q'
  bal : ∀ d, w.shm.Live d → B (w.bal d)

/-- The next step is the one of a request that does not match the dialog of its route parameter. -/
def World.Leak (w : World ι) (p : ι) (d : Nat) : Prop := ∃ req, w.procs p = .onrouteMatch d req ∧
  ∀ key ∈ req.preMatch, matchDialog (w.shm.cells d) key.callid key.ftag key.ttag .none = none

/-! ## The balance -/

section Balance

variable {w w' : World ι} {p : ι} {d : Nat} {pc : Pc} {m m' : Shm}

theorem held_nonneg (procs : ι → Pc) (d : Nat) : 0 ≤ held procs d := sum_nonneg fun _ _ => Int.natCast_nonneg _

theorem holds_eq_zero (h : held procs d = 0) (q : ι) : (procs q).holds d = 0 := by
  have hq := (sum_eq_zero_iff_of_nonneg fun q _ => Int.natCast_nonneg _).mp h q (mem_univ q)
  exact Int.natCast_eq_zero.mp hq

theorem held_eq_zero (h : ∀ q, (procs q).holds d = 0) : held procs d = 0 :=
  sum_eq_zero fun q _ => by rw [h q]; rfl

/-- With a balance that is not negative, nobody has a dialog whose count has come to 0, and it is deleted. -/
theorem free_of_bal (hbal : 0 ≤ w.bal d) (href : (w.shm.cells d).ref ≤ 0) :
    (w.shm.cells d).state = .deleted ∧ w.tmcb d = false ∧ ∀ q, (w.procs q).holds d = 0 := by
  have hheld := held_nonneg w.procs d
  rw [bal, Shm.due] at hbal
  have hst : (w.shm.cells d).state = .deleted := by
    by_contra hc
    rw [if_neg hc] at hbal
    split at hbal <;> omega
  have htm : ¬w.tmcb d := by
    intro hc
    rw [if_pos hc] at hbal
    omega
  exact ⟨hst, Bool.eq_false_iff.mpr htm, holds_eq_zero (by omega)⟩

variable [DecidableEq ι]

theorem held_update (procs : ι → Pc) (p : ι) (pc : Pc) (d : Nat) :
    held (update procs p pc) d = held procs d - (procs p).holds d + pc.holds d := by
  have hsum : ∀ f : ι → Pc, held f d = (f p).holds d + ∑ q ∈ univ.erase p, ((f q).holds d : Int) := fun f =>
    (add_sum_erase _ _ (mem_univ p)).symm
  have hrest : ∑ q ∈ univ.erase p, ((update procs p pc q).holds d : Int) =
      ∑ q ∈ univ.erase p, ((procs q).holds d : Int) :=
    sum_congr rfl fun q hq => by rw [update_of_ne (ne_of_mem_erase hq)]
  rw [hsum, hsum procs, hrest, update_self]
  ring

theorem bal_goto (w : World ι) (p : ι) (m : Shm) (pc : Pc) (d : Nat) :
    (w.goto p m pc).bal d = w.bal d + (m.due d - w.shm.due d) + (w.procs p).holds d - pc.holds d := by
  show m.due d - (if w.tmcb d then 1 else 0) - held (update w.procs p pc) d = _
  rw [held_update, bal]
  ring

theorem Shm.Same.due (h : m.Same m') (d : Nat) : m'.due d = m.due d := by
  rw [Shm.due, Shm.due, h.ref, h.state]

end Balance

/-! ## Every step -/

section Due

variable {w w' : World ι} {p : ι} {d : Nat} {pc : Pc} {m m' : Shm} {st : Shm.NextState} {c : DlgCell}

@[simp] theorem Shm.touch_due (m : Shm) (d d' : Nat) : (m.touch d).due d' = m.due d' := rfl

theorem Pc.holds_of_dlg (h : pc.dlg = some d) (d' : Nat) : pc.holds d' = if d' = d then pc.refs else 0 := by
  rw [holds, h]
  simp [eq_comm]

theorem Pc.holds_of_idle (h : pc.dlg = some d ∨ pc = .idle) (d' : Nat) :
    pc.holds d' = if d' = d then pc.refs else 0 := by
  rcases h with h | rfl
  · exact holds_of_dlg h d'
  · rw [holds, if_neg (by simp [dlg]), refs, ite_self]

theorem Pc.holds_of_none (h : pc.dlg = none) (d' : Nat) : pc.holds d' = 0 := by
  rw [holds, h]
  simp

theorem due_setCell {k : Int} (h : m'.cells = update m.cells d c)
    (hc : (c.ref - if c.state = .deleted then 0 else 1) = m.due d + k) (d' : Nat) :
    m'.due d' = m.due d' + if d' = d then k else 0 := by
  by_cases hd : d' = d
  · subst hd
    rw [if_pos rfl, ← hc, Shm.due, h, update_self]
  · rw [Shm.due, h, update_of_ne hd, if_neg hd, add_zero, Shm.due]

theorem Next.due (h : Next m d ev m' st c) (d' : Nat) :
    m'.due d' = m.due d' + if d' = d then (st.unref.getD 0 : Int) else 0 := due_setCell h.cells h.cell.due d'

theorem Next.same (h : Next m d ev m' st c) :
    (m.setCell d c).Same m' := by
  have hcells : m'.cells = (m.setCell d c).cells := h.cells
  exact ⟨h.entries, h.fresh, h.freed, h.destroyed, fun _ => by rw [hcells], fun _ => by rw [hcells],
    fun _ => by rw [hcells]⟩

theorem Unref.due {cnt : Int} (h : Unref m d cnt m') (d' : Nat) :
    m'.due d' = m.due d' + if d' = d then -cnt else 0 := by
  refine due_setCell h.cells ?_ d'
  rw [Shm.due]
  ring

theorem tdel_due (h : m.nextStateDlg d .tdel = some (m', st)) (d' : Nat) :
    m'.due d' = m.due d' + if d' = d then (st.unref.getD 0 : Int) - 1 else 0 := by
  obtain ⟨c, m₁, hunref, rfl, href, -, -, -, hkind⟩ := nextStateDlg_tdel h
  have hset : ((m.touch d).setCell d c).due d' = m.due d' + if d' = d then (st.unref.getD 0 : Int) else 0 := by
    refine due_setCell (c := c) rfl ?_ d'
    rw [href, Shm.due]
    rcases hkind with ⟨hst, hst', hu⟩ | ⟨hst, -, hu⟩
    · simp [hst, hst', hu]
    · simp [hst, hu]
  show m₁.due d' = _
  rw [hunref.due, hset]
  split <;> ring

theorem bal_tmcb (w : World ι) (d d' : Nat) (b : Bool) : bal { w with tmcb := update w.tmcb d b } d' =
    w.bal d' + if d' = d then (if w.tmcb d then 1 else 0) - (if b then 1 else 0) else 0 := by
  show w.shm.due d' - (if update w.tmcb d b d' then 1 else 0) - held w.procs d' = _
  rw [bal]
  by_cases hd : d' = d
  · subst hd
    rw [if_pos rfl, update_self]
    ring
  · rw [if_neg hd, update_of_ne hd]
    ring

variable [DecidableEq ι]

/-- A process that goes on keeps the balance, when it accounts for the references it takes and releases. -/
theorem bal_goto_eq {a b : Nat} (ha : ∀ d', (w.procs p).holds d' = if d' = d then a else 0)
    (hb : ∀ d', pc.holds d' = if d' = d then b else 0)
    (hdue : ∀ d', m.due d' = w.shm.due d' + if d' = d then (b : Int) - a else 0) (d' : Nat) :
    (w.goto p m pc).bal d' = w.bal d' := by
  rw [bal_goto, ha, hb, hdue]
  split <;> push_cast <;> ring

variable {B : Int → Prop}

theorem link_bal (hok : w.Ok B) (hidle : w.procs p = .idle) (callid fromTag : Str) (rrParam registered : Bool)
    (timeout : Int) (d : Nat) :
    (w.goto p (w.shm.linkDlg callid fromTag 1) (.onreqRegister w.shm.fresh rrParam registered timeout)).bal d =
      if d = w.shm.fresh then 0 else w.bal d := by
  have hnolive : ¬w.shm.Live w.shm.fresh := fun hc => absurd hc.1 (lt_irrefl _)
  rw [bal_goto, hidle, holds_of_none rfl, holds_of_dlg (d := w.shm.fresh) rfl,
    due_setCell (m := w.shm) (d := w.shm.fresh) (k := 0 - w.shm.due w.shm.fresh + 1) rfl (by simp)]
  by_cases hd : d = w.shm.fresh
  · subst hd
    have htm : ¬w.tmcb w.shm.fresh := fun hc => hnolive (hok.tmcb _ hc)
    have hheld : Dialog.held w.procs w.shm.fresh = 0 := by
      apply held_eq_zero
      intro q
      by_contra hc
      have hdlg : (w.procs q).dlg = some w.shm.fresh := by
        by_contra hn
        exact hc (if_neg hn)
      rw [holds_of_dlg hdlg, if_pos rfl] at hc
      exact hnolive (hok.held q _ hdlg hc)
    rw [bal, hheld, if_neg htm]
    simp [refs]
  · simp [hd]

theorem Effect.bal_cases (h : Effect w p w') (hok : w.Ok B) (hdrop : ∀ d, w.procs p ≠ .onreqError d) (d : Nat) :
    (w'.bal d = w.bal d ∧ (w'.shm.fresh = w.shm.fresh ∨ d ≠ w.shm.fresh)) ∨ d = w.shm.fresh ∧ w'.bal d = 0 ∨
      w.Leak p d ∧ w'.bal d = w.bal d + 1 := by
  have hidle : ∀ {d : Nat} (d' : Nat), idle.holds d' = if d' = d then 0 else 0 :=
    fun d' => holds_of_idle (.inr rfl) d'
  cases h with
  | skip | expire htl hm => exact .inl ⟨rfl, .inl rfl⟩
  | link callid fromTag rrParam registered timeout hpc =>
    have hbal := link_bal hok hpc callid fromTag rrParam registered timeout d
    by_cases hd : d = w.shm.fresh
    · exact .inr (.inl ⟨hd, by rw [hbal, if_pos hd]⟩)
    · exact .inl ⟨by rw [hbal, if_neg hd], .inr hd⟩
  | register hpc hsame htimer huaf =>
    rename_i d₀ rrParam registered timeout m'
    have htm : w.tmcb d₀ = false := hok.onreq p d₀ (by rw [hpc]; rfl) (by rw [hpc]; rfl)
    refine .inl ⟨?_, .inl hsame.fresh⟩
    show bal { w.goto p m' .idle with tmcb := update (w.goto p m' .idle).tmcb d₀ true } d = _
    rw [bal_tmcb, bal_goto, hsame.due, hidle (d := d₀), hpc, holds_of_dlg (d := d₀) rfl]
    by_cases hd : d = d₀ <;> simp [hd, goto, htm, refs]
  | move hd hd' hrefs _ _ _ _ hsame =>
    exact .inl ⟨bal_goto_eq (holds_of_dlg hd) (holds_of_dlg hd') (by simp [hsame.due, hrefs]) d, .inl hsame.fresh⟩
  | «return» hpc hsame =>
    refine .inl ⟨?_, .inl hsame.fresh⟩
    exact bal_goto_eq (a := 0) (fun d' => by rw [hpc]; exact holds_of_dlg rfl d') hidle (by simp [hsame.due]) d
  | unref hd hpoint' hm =>
    refine .inl ⟨bal_goto_eq (holds_of_dlg hd) hidle (fun d' => ?_) d, .inl (unrefDlg_spec hm).fresh⟩
    rw [(unrefDlg_spec hm).due]
    simp
  | drop hpc hm => exact absurd hpc (hdrop _)
  | acquire hnone hmem hstate hd' hrefs =>
    refine .inl ⟨?_, .inl rfl⟩
    refine bal_goto_eq (a := 0) (by simp [holds_of_none hnone]) (holds_of_dlg hd') (fun d' => ?_) d
    rw [hrefs]
    refine due_setCell rfl ?_ d'
    simp [Shm.due, hstate]
  | seek hnone hd' =>
    refine .inl ⟨?_, .inl rfl⟩
    exact bal_goto_eq (d := 0) (a := 0) (b := 0) (by simp [holds_of_none hnone]) (by simp [holds_of_none hd'])
      (by simp) d
  | answer hpc htm =>
    refine .inl ⟨?_, .inl rfl⟩
    exact bal_goto_eq (a := 0) (b := 0) (fun d' => by rw [hpc]; exact hidle d') (holds_of_dlg rfl) (by simp) d
  | event hsrc hev hm hd' _ _ _ hrefs =>
    obtain ⟨c, hnext⟩ := nextStateDlg_spec hev hm
    have hsrc' := hsrc.imp And.left And.left
    refine .inl ⟨bal_goto_eq (holds_of_idle hsrc') (holds_of_idle hd') (fun d' => ?_) d, .inl hnext.fresh⟩
    rw [hnext.due, hrefs]
    push_cast
    rw [add_sub_cancel_left]
  | transDeleted hpc htm hfree hm hd' hpoint honreq hrefs =>
    rename_i d₀ m' st pc'
    have hfresh : m'.fresh = w.shm.fresh := by
      obtain ⟨c, m₁, hunref, rfl, -⟩ := nextStateDlg_tdel hm
      exact hunref.fresh
    refine .inl ⟨?_, .inl hfresh⟩
    show bal { w.goto p m' pc' with tmcb := update (w.goto p m' pc').tmcb d₀ false } d = _
    rw [bal_tmcb, bal_goto, tdel_due hm, holds_of_idle (hd'.imp And.left id), hpc, hidle (d := d₀), hrefs]
    by_cases hd : d = d₀
    · simp only [hd, goto, htm, if_true, Bool.false_eq_true, if_false]
      ring
    · simp [hd]
  | leak hpc hsame htimer huaf hmatch =>
    rename_i d₀ req m'
    rw [bal_goto, hsame.due, hidle (d := d₀), hpc, holds_of_dlg (d := d₀) rfl]
    by_cases hd : d = d₀
    · subst hd
      exact .inr (.inr ⟨⟨req, hpc, hmatch⟩, by simp [refs]⟩)
    · exact .inl ⟨by simp [hd], .inl hsame.fresh⟩
  | unlink hpc htl =>
    rename_i d₀
    refine .inl ⟨?_, .inl rfl⟩
    show (w.goto p { w.shm.touch d₀ with timer := (w.shm.timer.unlinkExpired w.tl).1 } (.ontimeoutEvent d₀)).bal d = _
    have hdue : ∀ d', Shm.due { w.shm.touch d₀ with timer := (w.shm.timer.unlinkExpired w.tl).1 } d' = w.shm.due d' :=
      fun _ => rfl
    exact bal_goto_eq (d := d₀) (a := 0) (b := 0) (fun d' => by rw [hpc]; exact hidle d') (holds_of_dlg rfl)
      (by simp [hdue]) d

end Due

/-! ## The invariant -/

section Invariant

variable {w w' : World ι} {p : ι} {d : Nat} {B : Int → Prop}

theorem World.Ok.mono {B' : Int → Prop} (hok : w.Ok B) (hB : ∀ n, B n → B' n) : w.Ok B' :=
  ⟨hok.shm, hok.tmcb, hok.held, hok.prot, hok.onreq, hok.unique, fun d hd => hB _ (hok.bal d hd)⟩

theorem World.Ok.live (hok : w.Ok B) (hd : (w.procs p).dlg = some d) (hpoint : w.procs p ≠ .ontimeoutEvent d) :
    w.shm.Live d := by
  by_cases hrefs : (w.procs p).refs = 0
  · rcases hok.prot p d hd hrefs with ⟨-, htm⟩ | hpc
    · exact hok.tmcb d htm
    · exact absurd hpc hpoint
  · exact hok.held p d hd hrefs

section Event

variable {m' : Shm} {st : Shm.NextState} {ev : DlgEvent} {c : DlgCell} (hok : w.Ok B)
  (hsrc : (w.procs p).dlg = some d ∧ (w.procs p).inTrans = false ∨ w.procs p = .idle ∧ w.tmcb d)
  (htimeout : (w.procs p).dlg = some d → (w.procs p).refs = 0 → ev = .reqbye) (hnext : Next w.shm d ev m' st c)
include hok hsrc htimeout hnext

theorem event_live (hlive : ¬w.shm.Live d) : c = w.shm.cells d := by
  rcases hsrc with ⟨hd, -⟩ | ⟨-, htm⟩
  · have hpc : w.procs p = .ontimeoutEvent d := by
      by_contra hc
      exact hlive (hok.live hd hc)
    have hbye : ev = .reqbye := htimeout hd (by rw [hpc]; rfl)
    have hstate : (w.shm.cells d).state = .deleted ∨ (w.shm.cells d).state = .unconfirmed := by
      rcases Nat.lt_or_ge d w.shm.fresh with hlt | hge
      · have hfreed : w.shm.freed d := by
          by_contra hc
          exact hlive ⟨hlt, by simpa using hc⟩
        exact (hok.shm.gone d hfreed).2
      · exact .inr (hok.shm.unborn d hge)
    rcases hstate with hst | hst
    · exact hnext.cell.gone hbye hst
    · exact hnext.cell.unconfirmed hbye hst
  · exact absurd (hok.tmcb d htm) hlive

theorem event_held (hrefs : (w.procs p).refs + st.unref.getD 0 ≠ 0) : w.shm.Live d := by
  by_contra hlive
  have hu : st.unref = none := by
    cases hu : st.unref with
    | none => rfl
    | some u =>
      obtain ⟨-, hold, hnew, -⟩ := hnext.cell.unref u hu
      rw [event_live hok hsrc htimeout hnext hlive] at hnew
      exact absurd hnew hold
  rcases hsrc with ⟨hd, -⟩ | ⟨-, htm⟩
  · rw [hu] at hrefs
    exact hlive (hok.held p d hd hrefs)
  · exact hlive (hok.tmcb d htm)

end Event

variable [DecidableEq ι]

theorem Effect.change (h : Effect w p w') (hok : w.Ok B) : w.shm.Change w'.shm := by
  have hunref : ∀ {d : Nat} {cnt : Int} {m' : Shm}, w.shm.Live d → w.shm.unrefDlg d cnt = some m' → w.shm.Change m' :=
    fun hlive hm => .unref hlive rfl (hok.shm.pos _ hlive) (by rw [Shm.setCell_self]; exact .touch _ _)
      (unrefDlg_spec hm) (.refl _)
  cases h with
  | skip | seek | answer => exact .same hok.shm (.refl _)
  | link callid fromTag => exact .link callid fromTag rfl
  | register _ hsame | move _ _ _ _ _ _ _ hsame | «return» _ hsame | leak _ hsame => exact .same hok.shm hsame
  | unref hd hpoint' hm => exact hunref (hok.live hd (hpoint' _)) hm
  | drop hpc hm => exact hunref (hok.held p _ (by rw [hpc]; rfl) (by simp [hpc, refs])) hm
  | acquire hnone hmem hstate hd' hrefs honreq =>
    rename_i d₀ _ _
    have hlive := ((hok.shm.mem _ _).mp hmem).1
    exact .cell (d := d₀) (c := { w.shm.cells d₀ with ref := (w.shm.cells d₀).ref + 1 }) rfl
      (fun _ => Int.add_pos (hok.shm.pos _ hlive) Int.one_pos) (fun _ => rfl) (.refl _)
  | event hsrc hev hm _ _ _ htimeout =>
    obtain ⟨c, hnext⟩ := nextStateDlg_spec hev hm
    refine .cell hnext.cell.hEntry (fun hlive => lt_of_lt_of_le (hok.shm.pos _ hlive) hnext.cell.ref_le)
      (fun hlive => ?_)
      hnext.same
    rw [event_live hok hsrc htimeout hnext hlive]
  | transDeleted _ htm _ hm =>
    have hlive := hok.tmcb _ htm
    obtain ⟨c, m₁, hunref, rfl, href, hE, -⟩ := nextStateDlg_tdel hm
    exact .unref hlive hE (href ▸ hok.shm.pos _ hlive) (.touch (w.shm.setCell _ c) _) hunref (.touch _ _)
  | expire htl hm => exact .same hok.shm ((Shm.Same.refl _).timer _)
  | unlink => exact .same hok.shm ((Shm.Same.touch _ _).timer _)

theorem Pc.refs_of_onreq {pc : Pc} (h : pc.onreq) : pc.refs ≠ 0 := by
  cases pc <;> simp [onreq, refs] at h ⊢

/-- Where the process is after a step, and whether the transaction has its callback. -/
structure After (w : World ι) (p : ι) (w' : World ι) (pc' : Pc) : Prop where
  procs : w'.procs = update w.procs p pc'
  held : ∀ d, pc'.dlg = some d → pc'.refs ≠ 0 → w.shm.Live d ∨ w'.shm.Live d
  prot : ∀ d, pc'.dlg = some d → pc'.refs = 0 → pc'.inTrans ∧ w'.tmcb d ∨ pc' = .ontimeoutEvent d
  onreq : ∀ d, pc'.onreq → pc'.dlg = some d →
    (w.procs p).onreq ∧ (w.procs p).dlg = some d ∧ (w'.shm.cells d).state = (w.shm.cells d).state ∨
      d = w.shm.fresh ∧ (w'.shm.cells d).state = .unconfirmed
  registered : ∀ d, w'.tmcb d → w.tmcb d ∨ (w.procs p).onreq ∧ (w.procs p).dlg = some d ∧ pc' = .idle
  deleted : ∀ d, w.tmcb d → w'.tmcb d ∨ w.TransFree d

theorem After.skip (hok : w.Ok B) (hprocs : w'.procs = w.procs) (htm : w'.tmcb = w.tmcb)
    (hcells : w'.shm.cells = w.shm.cells) : After w p w' (w.procs p) where
  procs := by rw [hprocs, Function.update_eq_self]
  held d hd hrefs := .inl (hok.held p d hd hrefs)
  prot d hd hrefs := by rw [htm]; exact hok.prot p d hd hrefs
  onreq d ho hd := .inl ⟨ho, hd, by rw [hcells]⟩
  registered d hd := .inl (htm ▸ hd)
  deleted d hd := .inl (htm ▸ hd)

omit [Fintype ι] in
theorem After.idle (hprocs : w'.procs = update w.procs p .idle) (htm : w'.tmcb = w.tmcb) : After w p w' .idle where
  procs := hprocs
  held := by simp [dlg]
  prot := by simp [dlg]
  onreq := by simp [dlg]
  registered d hd := .inl (htm ▸ hd)
  deleted d hd := .inl (htm ▸ hd)

theorem Effect.after (h : Effect w p w') (hok : w.Ok B) : ∃ pc', After w p w' pc' := by
  cases h with
  | skip | expire htl hm => exact ⟨_, .skip hok rfl rfl rfl⟩
  | link callid fromTag =>
    have hlive : (w.shm.linkDlg callid fromTag 1).Live w.shm.fresh :=
      ⟨Nat.lt_succ_self _, hok.shm.fresh_not_freed⟩
    refine ⟨_, rfl, fun d hd _ => ?_, by simp [refs], fun d _ hd => ?_, fun d hd => .inl hd, fun d hd => .inl hd⟩
    · cases hd
      exact .inr hlive
    · cases hd
      exact .inr ⟨rfl, by simp [goto, Shm.linkDlg]⟩
  | register hpc hsame htimer huaf =>
    rename_i d₀ rrParam registered timeout m'
    refine ⟨.idle, rfl, by simp [dlg], by simp [dlg], by simp [dlg], fun d hd => ?_, fun d hd => ?_⟩
    · by_cases hdd : d = d₀
      · rw [hpc, hdd]
        exact .inr ⟨rfl, rfl, rfl⟩
      · exact .inl (by simpa [update_of_ne hdd] using hd)
    · by_cases hdd : d = d₀ <;> simp [hdd, hd]
  | move hd hd' hrefs htrans honreq hpoint hpoint' hsame htimer huaf =>
    rename_i d₀ m' pc'
    have hdd : ∀ d, pc'.dlg = some d → (w.procs p).dlg = some d := fun d h => by rw [hd, ← hd', h]
    refine ⟨pc', rfl, fun d h hr => ?_, fun d h hr => ?_, fun d ho h => ?_, fun d hd => .inl hd, fun d hd => .inl hd⟩
    · exact .inl (hok.held p d (hdd d h) (hrefs ▸ hr))
    · rw [htrans]
      exact .inl ((hok.prot p d (hdd d h) (hrefs ▸ hr)).resolve_right (hpoint' d))
    · exact .inl ⟨honreq ▸ ho, hdd d h, hsame.state d⟩
  | «return» | unref | drop hpc hm | leak => exact ⟨_, .idle rfl rfl⟩
  | acquire _ hmem _ hd' hrefs honreq =>
    refine ⟨_, rfl, fun d h _ => ?_, by simp [hrefs], by simp [honreq], fun d hd => .inl hd, fun d hd => .inl hd⟩
    obtain rfl := some.inj (hd'.symm.trans h)
    exact .inl ((hok.shm.mem _ _).mp hmem).1
  | seek hnone hd' =>
    exact ⟨_, rfl, by simp [hd'], by simp [hd'], by simp [hd'], fun d hd => .inl hd, fun d hd => .inl hd⟩
  | answer hidle htm =>
    refine ⟨_, rfl, by simp [refs], fun d h _ => ?_, by simp [onreq], fun d hd => .inl hd, fun d hd => .inl hd⟩
    cases h
    exact .inl ⟨rfl, htm⟩
  | event hsrc hev hm hd' hpoint honreq htimeout hrefs hprot =>
    rename_i d₀ ev m' st pc'
    obtain ⟨c, hnext⟩ := nextStateDlg_spec hev hm
    have hdd : ∀ d, pc'.dlg = some d → pc'.dlg = some d₀ ∧ d = d₀ := by
      rcases hd' with hd' | rfl
      · exact fun d h => ⟨hd', some.inj (h.symm.trans hd')⟩
      · simp [dlg]
    refine ⟨pc', rfl, fun d h hr => ?_, fun d h hr => ?_, by simp [honreq], fun d hd => .inl hd, fun d hd => .inl hd⟩
    · rw [(hdd d h).2]
      exact .inl (event_held hok hsrc htimeout hnext (hrefs ▸ hr))
    · rw [(hdd d h).2]
      exact .inl (hprot (hdd d h).1 hr)
  | transDeleted hidle htm hfree hm hd' hpoint honreq hrefs =>
    rename_i d₀ m' st pc'
    refine ⟨pc', rfl, fun d h hr => ?_, fun d h hr => ?_, by simp [honreq], fun d hd => .inl ?_, fun d hd => ?_⟩
    · rcases hd' with ⟨hd', -⟩ | rfl
      · obtain rfl := some.inj (hd'.symm.trans h)
        exact .inl (hok.tmcb _ htm)
      · simp [dlg] at h
    · rcases hd' with ⟨-, hd'⟩ | rfl
      · exact absurd hr hd'
      · simp [dlg] at h
    · by_cases hdd : d = d₀
      · simp [hdd] at hd
      · simpa [update_of_ne hdd] using hd
    · by_cases hdd : d = d₀
      · rw [hdd]
        exact .inr hfree
      · exact .inl (by simpa [update_of_ne hdd] using hd)
  | unlink =>
    refine ⟨_, rfl, by simp [refs], fun d h _ => ?_, by simp [onreq], fun d hd => .inl hd, fun d hd => .inl hd⟩
    cases h
    exact .inr rfl

/-- The balance after a step, also of a dialog that it frees. -/
theorem Effect.bal_ok (h : Effect w p w') (hok : w.Ok B) (hdrop : ∀ d, w.procs p ≠ .onreqError d)
    (hleak : ∀ d, w.Leak p d → ∀ n, B n → B (n + 1)) (hd : w.shm.Live d) : B (w'.bal d) := by
  rcases h.bal_cases hok hdrop d with ⟨hbal, -⟩ | ⟨rfl, -⟩ | ⟨hl, hbal⟩
  · rw [hbal]
    exact hok.bal d hd
  · exact absurd hd.1 (lt_irrefl _)
  · rw [hbal]
    exact hleak d hl _ (hok.bal d hd)

/-- **The invariant** holds after every step, unless `dlg_onreq` fails. -/
theorem Effect.ok (h : Effect w p w') (hok : w.Ok B) (hzero : B 0) (hB : ∀ n, B n → 0 ≤ n)
    (hdrop : ∀ d, w.procs p ≠ .onreqError d) (hleak : ∀ d, w.Leak p d → ∀ n, B n → B (n + 1)) : w'.Ok B := by
  have hchange := h.change hok
  obtain ⟨pc', hafter⟩ := h.after hok
  have hp : w'.procs p = pc' := by rw [hafter.procs, update_self]
  have hq : ∀ q, q ≠ p → w'.procs q = w.procs q := fun q hq => by rw [hafter.procs, update_of_ne hq]
  have hfresh : ¬w.shm.Live w.shm.fresh := fun hc => lt_irrefl _ hc.1
  have hbal : ∀ d, w.shm.Live d → B (w'.bal d) := fun d hd => h.bal_ok hok hdrop hleak hd
  -- what is still held has not been freed
  have hlive : ∀ d, w.shm.Live d → w'.shm.Live d ∨
      (w'.shm.cells d).state = .deleted ∧ w'.tmcb d = false ∧ ∀ q, (w'.procs q).holds d = 0 := fun d hd =>
    (hchange.live hd).imp_right fun href => free_of_bal (hB _ (hbal d hd)) href
  constructor
  case shm =>
    refine hchange.ok hok.shm fun d hd href => .inl ?_
    exact (free_of_bal (hB _ (hbal d hd)) href).1
  case tmcb =>
    intro d htm
    have hd : w.shm.Live d := by
      rcases hafter.registered d htm with htm | ⟨ho, hd, -⟩
      · exact hok.tmcb d htm
      · exact hok.held p d hd (refs_of_onreq ho)
    rcases hlive d hd with hd | ⟨-, hno, -⟩
    · exact hd
    · simp [hno] at htm
  case held =>
    intro q d hd hrefs
    have hd' : w.shm.Live d ∨ w'.shm.Live d := by
      by_cases hqp : q = p
      · subst hqp
        rw [hp] at hd hrefs
        exact hafter.held d hd hrefs
      · rw [hq q hqp] at hd hrefs
        exact .inl (hok.held q d hd hrefs)
    rcases hd' with hd' | hd'
    · rcases hlive d hd' with hd' | ⟨-, -, hno⟩
      · exact hd'
      · have hno := hno q
        rw [holds_of_dlg hd, if_pos rfl] at hno
        exact absurd hno hrefs
    · exact hd'
  case prot =>
    intro q d hd hrefs
    by_cases hqp : q = p
    · subst hqp
      rw [hp] at hd hrefs ⊢
      exact hafter.prot d hd hrefs
    · rw [hq q hqp] at hd hrefs ⊢
      refine (hok.prot q d hd hrefs).imp_left fun ⟨htrans, htm⟩ => ⟨htrans, ?_⟩
      exact (hafter.deleted d htm).resolve_right fun hfree => hfree q ⟨htrans, hd⟩
  case onreq =>
    intro q d ho hd
    rw [Bool.eq_false_iff]
    intro htm
    by_cases hqp : q = p
    · subst hqp
      rw [hp] at ho hd
      rcases hafter.registered d htm with htm | ⟨-, -, rfl⟩
      · rcases hafter.onreq d ho hd with ⟨ho, hd, -⟩ | ⟨rfl, -⟩
        · simp [hok.onreq q d ho hd] at htm
        · exact hfresh (hok.tmcb _ htm)
      · simp [onreq] at ho
    · rw [hq q hqp] at ho hd
      rcases hafter.registered d htm with htm | ⟨ho', hd', -⟩
      · simp [hok.onreq q d ho hd] at htm
      · exact hqp (hok.unique q p d ho ho' hd hd')
  case unique =>
    have hmixed : ∀ q d, q ≠ p → pc'.onreq → pc'.dlg = some d → (w.procs q).onreq →
        (w.procs q).dlg = some d → False := by
      intro q d hqp ho hd ho' hd'
      rcases hafter.onreq d ho hd with ⟨ho, hd, -⟩ | ⟨rfl, -⟩
      · exact hqp (hok.unique q p d ho' ho hd' hd)
      · exact hfresh (hok.held q _ hd' (refs_of_onreq ho'))
    intro q q' d ho ho' hd hd'
    by_cases hqp : q = p
    · by_cases hqp' : q' = p
      · rw [hqp, hqp']
      · rw [hqp, hp] at ho hd
        rw [hq q' hqp'] at ho' hd'
        exact (hmixed q' d hqp' ho hd ho' hd').elim
    · rw [hq q hqp] at ho hd
      by_cases hqp' : q' = p
      · rw [hqp', hp] at ho' hd'
        exact (hmixed q d hqp ho' hd' ho hd).elim
      · rw [hq q' hqp'] at ho' hd'
        exact hok.unique q q' d ho ho' hd hd'
  case bal =>
    intro d hd
    rcases hchange.live_back hd with hd' | rfl
    · exact hbal d hd'
    · rcases h.bal_cases hok hdrop w.shm.fresh with ⟨-, he | hne⟩ | ⟨-, hbal⟩ | ⟨⟨req, hpc, -⟩, -⟩
      · exact absurd hd.1 (by rw [he]; exact lt_irrefl _)
      · exact absurd rfl hne
      · rw [hbal]
        exact hzero
      · exact absurd (hok.held p w.shm.fresh (by rw [hpc]; rfl) (by simp [hpc, refs])) hfresh

end Invariant

end OpenSer.Dialog
