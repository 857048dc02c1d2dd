import OpenSer.Dialog.DlgRefs
import OpenSer.Lib.Traces

/-!
# The balance of references

Handlers that run one after the other. When none is running, a dialog has one reference for the table, as long as it is
not deleted, and one for the transaction, as long as that is not deleted.

* `balanced_iff`: exactly the runs in which every request with the route parameter of a dialog matches that dialog.
* `leak_after_mismatch`: a request with the route parameter of a dialog and other tags. `dlg_onroute` returns without
  releasing its reference, and the dialog stays when it is over.
-/

namespace OpenSer.Dialog

open Option Function
open Lib (Trace)
open World Pc

variable {ι : Type} [DecidableEq ι] [Fintype ι]

/-- A step while no other process is in a handler. -/
def World.SeqStep (w : World ι) (a : ι × Act) (w' : World ι) : Prop := w.Step a w' ∧ ∀ q, q ≠ a.1 → w.procs q = .idle

instance (w : World ι) : Decidable w.Quiet := inferInstanceAs (Decidable (∀ p, w.procs p = .idle))

/-- The count of every dialog is what the table and the transaction hold, and a dialog that neither holds is gone. -/
structure World.Balanced (w : World ι) : Prop where
  ref : ∀ d, w.shm.Live d →
    (w.shm.cells d).ref = (if (w.shm.cells d).state = .deleted then 0 else 1) + (if w.tmcb d then 1 else 0)
  gone : ∀ d, d < w.shm.fresh → (w.shm.cells d).state = .deleted → w.tmcb d = false →
    w.shm.freed d ∧ ∀ h, d ∉ w.shm.entries h

/-- A request that has found a dialog by its route parameter matches it. -/
def World.Matches (w : World ι) (a : ι × Act) : Prop := ∀ d req, w.procs a.1 = .onrouteMatch d req →
  ∃ key ∈ req.preMatch, matchDialog (w.shm.cells d) key.callid key.ftag key.ttag .none ≠ none

structure World.SeqOk (w : World ι) : Prop where
  ok : w.Ok (· = 0)
  onreq : ∀ q d, (w.procs q).onreq → (w.procs q).dlg = some d → (w.shm.cells d).state = .unconfirmed

section Run

variable {w w' : World ι} {p : ι} {d : Nat} {a : ι × Act}

omit [DecidableEq ι] in
/-- Between handlers the counts are balanced. -/
theorem World.SeqOk.balanced (h : w.SeqOk) (hquiet : w.Quiet) : w.Balanced := by
  have href : ∀ d, w.shm.Live d →
      (w.shm.cells d).ref = (if (w.shm.cells d).state = .deleted then 0 else 1) + (if w.tmcb d then 1 else 0) := by
    intro d hd
    have hbal : w.bal d = 0 := h.ok.bal d hd
    have hheld : held w.procs d = 0 := held_eq_zero fun q => by rw [hquiet q]; exact holds_of_none rfl d
    rw [bal, Shm.due] at hbal
    omega
  refine ⟨href, fun d hd hst htm => ?_⟩
  have hfreed : w.shm.freed d := by
    by_contra hc
    have hlive : w.shm.Live d := ⟨hd, by simpa using hc⟩
    have hpos := h.ok.shm.pos d hlive
    rw [href d hlive, if_pos hst, htm] at hpos
    exact absurd hpos (by decide)
  refine ⟨hfreed, fun e hmem => ?_⟩
  have hlive := ((h.ok.shm.mem d e).mp hmem).1
  rw [hlive.2] at hfreed
  cases hfreed

omit [Fintype ι] in
theorem goto_idle {m' : Shm} (hothers : ∀ q, q ≠ p → w.procs q = .idle) : (w.goto p m' .idle).Quiet := by
  intro q
  by_cases hq : q = p
  · rw [hq]
    exact update_self ..
  · exact (update_of_ne hq ..).trans (hothers q hq)

/-- When `dlg_onreq` fails it holds the only reference besides the one of the table, and releases both. -/
theorem drop_ok {B : Int → Prop} {m' : Shm} (hok : w.Ok B) (hothers : ∀ q, q ≠ p → w.procs q = .idle)
    (hpc : w.procs p = .onreqError d) (hstate : (w.shm.cells d).state = .unconfirmed) (hbal : w.bal d = 0)
    (hm : w.shm.unrefDlg d 2 = some m') : (w.goto p m' .idle).Ok B := by
  have hchange := (Effect.drop hpc hm).change hok
  have hunref := unrefDlg_spec hm
  have htm : w.tmcb d = false := hok.onreq p d (by rw [hpc]; rfl) (by rw [hpc]; rfl)
  have hidle : ∀ q, (w.goto p m' .idle).procs q = .idle := goto_idle hothers
  have hcell : ∀ d', d' ≠ d → m'.cells d' = w.shm.cells d' := fun d' hd' => by
    rw [hunref.cells, update_of_ne hd']
    rfl
  have href : (w.shm.cells d).ref - 2 ≤ 0 := by
    have hheld : held w.procs d = 1 := by
      have hgoto := held_update w.procs p .idle d
      rw [held_eq_zero fun q => by rw [show update w.procs p .idle q = .idle from hidle q]; exact holds_of_none rfl d,
        hpc, holds_of_dlg rfl, holds_of_none rfl] at hgoto
      simp only [refs, if_true] at hgoto
      omega
    rw [bal, Shm.due, htm] at hbal
    simp at hbal
    omega
  have hfreed := (hunref.dead href).2.1
  have hlive' : ∀ d', w.shm.Live d' → d' ≠ d → m'.Live d' := by
    intro d' hd' hne
    rw [Shm.Live, hunref.fresh, hfreed, update_of_ne hne]
    exact hd'
  have hne : ∀ d', m'.Live d' → d' ≠ d := by
    rintro d' hd' rfl
    have hc := hd'.2
    rw [hfreed, update_self] at hc
    cases hc
  constructor
  case shm =>
    refine hchange.ok hok.shm fun d' hd' hle => ?_
    by_cases hdd : d' = d
    · right
      show (m'.cells d').state = _
      rw [hdd, hunref.cells, update_self]
      exact hstate
    · have hpos := hok.shm.pos d' hd'
      rw [← hcell d' hdd] at hpos
      exact absurd hle (not_le.mpr hpos)
  case tmcb => exact fun d' hd' => hlive' d' (hok.tmcb d' hd') fun hc => by rw [hc] at hd'; simp [goto, htm] at hd'
  case held => exact fun q d' hd' => by simp [hidle q, dlg] at hd'
  case prot => exact fun q d' hd' => by simp [hidle q, dlg] at hd'
  case onreq => exact fun q d' ho => by simp [hidle q, onreq] at ho
  case unique => exact fun q q' d' ho => by simp [hidle q, onreq] at ho
  case bal =>
    intro d' hd'
    have hdd := hne d' hd'
    have hback : w.shm.Live d' := by
      rcases hchange.live_back hd' with hback | rfl
      · exact hback
      · have hfresh : (w.goto p m' .idle).shm.fresh = w.shm.fresh := hunref.fresh
        exact absurd hd'.1 (by rw [hfresh]; exact lt_irrefl _)
    rw [bal_goto, Shm.due, Shm.due, hcell d' hdd, hpc, holds_of_dlg rfl, if_neg hdd, holds_of_none rfl]
    simpa using hok.bal d' hback

theorem exec_go {fuel : Nat} {act : Act} (h : w.exec fuel p act = some w') (hpc : w.procs p ≠ .idle) :
    ∃ ticks, w.go fuel ticks p (w.procs p) = some w' := by
  cases act with
  | call c => exact absurd (ite_none_right_eq_some.mp h).1 hpc
  | go ticks => exact ⟨ticks, h⟩

/-- **A step of a sequential run**, for every way to bound the balance: a dialog that is being created has no reference
that nobody holds. -/
theorem seq_step {B : Int → Prop} (hok : w.Ok B) (hzero : B 0) (hB : ∀ n, B n → 0 ≤ n)
    (honreq : ∀ q d, (w.procs q).onreq → (w.procs q).dlg = some d → (w.shm.cells d).state = .unconfirmed ∧ w.bal d = 0)
    (hstep : w.SeqStep a w') (hleak : ∀ d, w.Leak a.1 d → ∀ n, B n → B (n + 1)) :
    w'.Ok B ∧
      ∀ q d, (w'.procs q).onreq → (w'.procs q).dlg = some d → (w'.shm.cells d).state = .unconfirmed ∧ w'.bal d = 0 := by
  obtain ⟨⟨fuel, he⟩, hothers⟩ := hstep
  have heffect := exec_effect he
  by_cases hdrop : ∃ d, w.procs a.1 = .onreqError d
  · obtain ⟨d, hpc⟩ := hdrop
    obtain ⟨ticks, hgo⟩ := exec_go he (by simp [hpc])
    rw [hpc] at hgo
    obtain ⟨m', hm', rfl⟩ := map_eq_some_iff.mp hgo
    obtain ⟨hstate, hbal⟩ := honreq a.1 d (by rw [hpc]; rfl) (by rw [hpc]; rfl)
    refine ⟨drop_ok hok hothers hpc hstate hbal hm', fun q d' ho => ?_⟩
    rw [goto_idle hothers q] at ho
    cases ho
  · have hdrop' : ∀ d, w.procs a.1 ≠ .onreqError d := fun d hd => hdrop ⟨d, hd⟩
    obtain ⟨pc', hafter⟩ := heffect.after hok
    have hok' : w'.Ok B := heffect.ok hok hzero hB hdrop' hleak
    refine ⟨hok', fun q d ho hd => ?_⟩
    have hlive := hok'.held q d hd (refs_of_onreq ho)
    by_cases hq : q = a.1
    · subst hq
      rw [hafter.procs, update_self] at ho hd
      rcases hafter.onreq d ho hd with ⟨ho', hd', hst⟩ | ⟨rfl, hst⟩
      · obtain ⟨hstate, hbal⟩ := honreq a.1 d ho' hd'
        refine ⟨hst.trans hstate, ?_⟩
        rcases heffect.bal_cases hok hdrop' d with ⟨hb, -⟩ | ⟨-, hb⟩ | ⟨⟨req, hpc, -⟩, -⟩
        · exact hb.trans hbal
        · exact hb
        · rw [hpc] at ho'
          cases ho'
      · refine ⟨hst, ?_⟩
        rcases heffect.bal_cases hok hdrop' w.shm.fresh with ⟨hb, hf | hne⟩ | ⟨-, hb⟩ | ⟨⟨req, hpc, -⟩, -⟩
        · exact absurd hlive.1 (by rw [hf]; exact lt_irrefl _)
        · exact absurd rfl hne
        · exact hb
        · exact absurd (hok.held a.1 w.shm.fresh (by rw [hpc]; rfl) (by simp [hpc, refs])).1 (lt_irrefl _)
    · rw [hafter.procs, update_of_ne hq, hothers q hq] at ho
      cases ho

/-- A step whose request matches keeps the invariant. -/
theorem World.SeqOk.step (h : w.SeqOk) (hstep : w.SeqStep a w') (hmatch : w.Matches a) : w'.SeqOk := by
  have honreq : ∀ q d, (w.procs q).onreq → (w.procs q).dlg = some d →
      (w.shm.cells d).state = .unconfirmed ∧ w.bal d = 0 := fun q d ho hd =>
    ⟨h.onreq q d ho hd, h.ok.bal d (h.ok.held q d hd (refs_of_onreq ho))⟩
  obtain ⟨hok', honreq'⟩ := seq_step h.ok rfl (fun n hn => hn.ge) honreq hstep fun d ⟨req, hpc, hno⟩ => by
    obtain ⟨key, hkey, hsome⟩ := hmatch d req hpc
    exact absurd (hno key hkey) hsome
  exact ⟨hok', fun q d ho hd => (honreq' q d ho hd).1⟩

/-- A step whose request does not match leaves the counts unbalanced. -/
theorem World.SeqOk.leak (h : w.SeqOk) (hstep : w.SeqStep a w') (hmatch : ¬w.Matches a) : w'.Quiet ∧ ¬w'.Balanced := by
  obtain ⟨⟨fuel, he⟩, hothers⟩ := hstep
  rw [World.Matches] at hmatch
  push Not at hmatch
  obtain ⟨d, req, hpc, hno⟩ := hmatch
  obtain ⟨ticks, hgo⟩ := exec_go he (by simp [hpc])
  rw [hpc] at hgo
  have hw' : ∃ m', w.shm.Same m' ∧ w' = w.goto a.1 m' .idle := by
    cases hgo
    rw [onrouteMatch]
    split
    · exact ⟨_, .refl _, rfl⟩
    · rename_i key hkey
      refine ⟨_, .touch _ d, ?_⟩
      dsimp only
      rw [show matchDialog ((w.shm.touch d).cells d) key.callid key.ftag key.ttag .none = none from hno key hkey]
  obtain ⟨m', hsame, rfl⟩ := hw'
  have hquiet : (w.goto a.1 m' .idle).Quiet := goto_idle hothers
  refine ⟨hquiet, fun hbal => ?_⟩
  have hlive : w.shm.Live d := h.ok.held a.1 d (by rw [hpc]; rfl) (by simp [hpc, refs])
  have hone : (w.goto a.1 m' .idle).bal d = 1 := by
    rw [bal_goto, hsame.due, show w.bal d = 0 from h.ok.bal d hlive, hpc, holds_of_dlg rfl, holds_of_none rfl]
    simp [refs]
  have hheld : held (w.goto a.1 m' .idle).procs d = 0 :=
    held_eq_zero fun q => by rw [hquiet q]; exact holds_of_none rfl d
  have href := hbal.ref d ((hsame.live d).mpr hlive)
  rw [bal, Shm.due] at hone
  omega

omit [DecidableEq ι] in
theorem init_seqOk (size : BitVec 32) (rand : Nat → BitVec 32) (timerProc : ι) (mode : SeqMatchMode) :
    (init size rand timerProc mode).SeqOk := by
  have hlive : ∀ d, ¬(Shm.init size rand).Live d := fun d hd => Nat.not_lt_zero d hd.1
  constructor
  case onreq => exact fun q d ho => by simp [init, onreq] at ho
  case ok =>
    constructor
    case shm =>
      refine ⟨fun d e => ?_, fun e => List.nodup_nil, fun d hd => absurd hd (hlive d), fun d _ => rfl, ?_⟩
      · exact ⟨fun hd => by simp [init, Shm.init] at hd, fun hd => absurd hd.1 (hlive d)⟩
      · exact fun d hd => by simp [init, Shm.init] at hd
    case tmcb => exact fun d hd => by simp [init] at hd
    case held => exact fun q d hd => by simp [init, dlg] at hd
    case prot => exact fun q d hd => by simp [init, dlg] at hd
    case onreq => exact fun q d ho => by simp [init, onreq] at ho
    case unique => exact fun q q' d ho => by simp [init, onreq] at ho
    case bal => exact fun d hd => absurd hd (hlive d)

end Run

/-- **The balance**, for handlers that run one after the other. -/
theorem balanced_iff {size : BitVec 32} {rand : Nat → BitVec 32} {timerProc : ι} {mode : SeqMatchMode}
    {es : List ((ι × Act) × World ι)} (h : Trace World.SeqStep (World.init size rand timerProc mode) es) :
    (∀ e ∈ es, e.2.Quiet → e.2.Balanced) ↔
      Trace (fun w a _ => w.Matches a) (World.init size rand timerProc mode) es := by
  refine Trace.always_iff_of_breaks (I := World.SeqOk) (P := fun w => w.Quiet → w.Balanced) ?_ ?_ ?_ h
    (init_seqOk size rand timerProc mode)
  · exact fun w a w' hw hstep hmatch => hw.step hstep hmatch
  · exact fun w hw hquiet => hw.balanced hquiet
  · intro w a w' hw hstep hmatch hbal
    obtain ⟨hquiet, hno⟩ := hw.leak hstep hmatch
    exact hno (hbal hquiet)

/-! ## The counts are `int`s -/

/-- Over a run, a count grows by at most one with every step. -/
theorem trace_ref_le {n : Int} : ∀ {w : World ι} {es : List ((ι × Act) × World ι)}, Trace World.Step w es → 1 ≤ n →
    (∀ d, (w.shm.cells d).ref ≤ n) → ∀ e ∈ es, ∀ d, (e.2.shm.cells d).ref ≤ n + es.length
  | _, [], _, _, _ => by simp
  | w, (a, w') :: es, ⟨⟨_, hstep⟩, h⟩, hn, hle => by
    have hle' := (exec_effect hstep).ref_le hn hle
    have hrest := trace_ref_le h (by omega) hle'
    rw [List.length_cons]
    push_cast
    refine List.forall_mem_cons.mpr ⟨fun d => (hle' d).trans (by omega), fun e he d => (hrest e he d).trans (by omega)⟩

/-- No count overflows in a run of fewer than `2 ^ 31 - 1` steps. -/
theorem ref_lt_of_steps {size : BitVec 32} {rand : Nat → BitVec 32} {timerProc : ι} {mode : SeqMatchMode}
    {es : List ((ι × Act) × World ι)} (h : Trace World.Step (World.init size rand timerProc mode) es)
    (hes : es.length < 2 ^ 31 - 1) : ∀ e ∈ es, ∀ d, (e.2.shm.cells d).ref < 2 ^ 31 := by
  intro e he d
  have hle := trace_ref_le h (n := 1) le_rfl (fun _ => by simp [World.init, Shm.init]) e he d
  omega

/-! ## Runs of one process beside the timer -/

/-- A table of the least size that `init_dlg_table` accepts; the process `false` is the timer. -/
def smallTable : World Bool := .init 2 (fun _ => 0) false .strictId

def invite : InitialReq where
  toTag := some []
  isCancel := false
  hasDlgFlag := true
  fromTag := some ['a']
  callid := some ['c']
  built := true
  rrParam := true
  registered := true
  timeout := 10

/-- A request with the route parameter of the first dialog. -/
def withinFirst (method : ReqMethod) (ftag ttag : Str) : RouteReq :=
  ⟨method, some (some (0, 0)), some ⟨['c'], ftag, ttag⟩, 10⟩

/-- The handlers run to their end: a dialog is created and confirmed, and its transaction is deleted. -/
def establish : List Act :=
  [.call (.dlgOnreq invite), .go 0, .call (.dlgOnreply 0 (.responseOut 200 ['b'] true)), .go 0,
  .go 0, .go 0, .call (.dlgOnreply 0 .transDeleted)]

def bye : List Act := [.call (.dlgOnroute (withinFirst .bye ['a'] ['b'])), .go 0, .go 0, .go 0, .go 0, .go 0]

def mismatch : List Act := [.call (.dlgOnroute (withinFirst .other ['x'] ['b'])), .go 0]

/-- The process other than the timer runs. -/
def seqExec (w : World Bool) (a : Bool × Act) : Option (World Bool) :=
  if w.procs (!a.1) = .idle then w.exec 10 a.1 a.2 else none

/-- As long as requests match. -/
def matchExec (w : World Bool) (a : Bool × Act) : Option (World Bool) :=
  match w.procs a.1 with
  | .onrouteMatch d req =>
    if req.preMatch.any fun key => (matchDialog (w.shm.cells d) key.callid key.ftag key.ttag .none).isSome then
      seqExec w a
    else none
  | _ => seqExec w a

theorem seqExec_step {w w' : World Bool} {a : Bool × Act} (h : seqExec w a = some w') : w.SeqStep a w' := by
  obtain ⟨hidle, h⟩ := ite_none_right_eq_some.mp h
  refine ⟨⟨10, h⟩, fun q hq => ?_⟩
  rw [Bool.eq_not_of_ne hq]
  exact hidle

theorem matchExec_step {w w' : World Bool} {a : Bool × Act} (h : matchExec w a = some w') :
    w.SeqStep a w' ∧ w.Matches a := by
  rw [matchExec] at h
  split at h
  · rename_i d req hpc
    obtain ⟨hany, h⟩ := ite_none_right_eq_some.mp h
    refine ⟨seqExec_step h, fun d' req' hpc' => ?_⟩
    obtain ⟨rfl, rfl⟩ := onrouteMatch.inj (hpc.symm.trans hpc')
    cases hkey : req.preMatch with
    | none => simp [hkey] at hany
    | some key =>
      rw [hkey] at hany
      exact ⟨key, rfl, isSome_iff_ne_none.mp hany⟩
  · rename_i hno
    exact ⟨seqExec_step h, fun d req hpc => absurd hpc (hno d req)⟩

/-- A dialog is established and ended with a BYE. -/
theorem balanced_after_bye : ∃ es, Trace World.SeqStep smallTable es ∧
    es.map Prod.fst = (establish ++ bye).map (true, ·) ∧ ∀ e ∈ es, e.2.Quiet → e.2.Balanced := by
  have hsome : (Lib.exec matchExec smallTable ((establish ++ bye).map (true, ·))).isSome := by decide +kernel
  obtain ⟨w, hw⟩ := isSome_iff_exists.mp hsome
  obtain ⟨es, hes, hlabels, -⟩ := Lib.exec_trace hw
  have hseq : Trace World.SeqStep smallTable es := hes.imp fun _ _ _ he => (matchExec_step he).1
  exact ⟨es, hseq, hlabels, (balanced_iff hseq).mpr (hes.imp fun _ _ _ he => (matchExec_step he).2)⟩

/-- A request with the route parameter of the dialog and another tag comes before the BYE. Its reference is left, and
the dialog, which is deleted and whose transaction is deleted, is still there. -/
theorem leak_after_mismatch : ∃ es w, Trace World.SeqStep smallTable es ∧
    es.map Prod.fst = (establish ++ mismatch ++ bye).map (true, ·) ∧
    (es.map Prod.snd).getLastD smallTable = w ∧ w.Quiet ∧ (w.shm.cells 0).state = .deleted ∧ w.tmcb 0 = false ∧
    (w.shm.cells 0).ref = 1 ∧ w.shm.freed 0 = false ∧ 0 ∈ w.shm.entries 0 := by
  apply Lib.exec_shows fun _ _ _ => seqExec_step
  decide +kernel

end OpenSer.Dialog
