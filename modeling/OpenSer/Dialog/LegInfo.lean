import OpenSer.Parser.PrintRr

/-!
# The legs of a dialog

`populate_leg_info` of `dlg_handlers.c`: what is stored for a leg, and its route set in particular. For the callee the
entries to be skipped are those that were in the request and those that this server added. The sum is not computed: `?:`
binds less than `+`, so that the number from the request is only a condition.

* `skipRecs_callee`: the entries that are skipped.
* `callee_route_set_iff`: when the route set of the callee is what it should be.
-/

namespace OpenSer.Dialog

open List Function OpenSer.Parser Option

/-! ## The function -/

inductive Leg
  | caller | callee
  deriving Repr, DecidableEq

structure Legs where
  fromRrNb : BitVec 32
  tag : Leg → Str
  contact : Leg → Str
  cseq : Leg → Str
  routeSet : Leg → Str

def Legs.unknown : Legs := ⟨0, fun _ => [], fun _ => [], fun _ => [], fun _ => []⟩

/-- What `populate_leg_info` finds in a message. -/
structure LegMsg where
  /-- The number of CSeq, if there is one that can be parsed. -/
  cseq : Option Str
  /-- The URIs of Contact, if there is one that can be parsed. -/
  contacts : Option (List Str)
  /-- The Record-Route headers, if the headers of the message can be parsed. -/
  recordRoute : Option (List RrHdr)

/-- What it reads of the transaction. -/
structure LegTrans where
  relaiedReplyBranch : Int
  /-- `uac[i].added_rr` of the branches. -/
  addedRr : List (BitVec 32)

/-- `t->uac[branch].added_rr`. There is no result when the branch does not exist. -/
def LegTrans.addedRrAt (t : LegTrans) (branch : Int) : Option (BitVec 32) :=
  if 0 ≤ branch then t.addedRr[branch.toNat]? else none

def skipRecs (dlg : Legs) (t : LegTrans) : Leg → Option (BitVec 32)
  | .caller => some 0
  | .callee =>
    -- `from_rr_nb + (branch >= 0) ? added_rr : 0`
    if dlg.fromRrNb + (if t.relaiedReplyBranch ≥ 0 then 1 else 0) ≠ 0 then t.addedRrAt t.relaiedReplyBranch else some 0

/-- `dlg_set_leg_info`, when there is memory: a route set that is empty is not stored. -/
def dlgSetLegInfo (dlg : Legs) (tag rr contact cseq : Str) (leg : Leg) : Legs :=
  { dlg with
    tag := update dlg.tag leg tag
    contact := update dlg.contact leg contact
    routeSet := if rr.length ≠ 0 then update dlg.routeSet leg rr else dlg.routeSet
    cseq := update dlg.cseq leg cseq }

/-- The route set of the message and the number of its entries, or an error. -/
def legRoutes (hdrs : List RrHdr) (leg : Leg) (skip : BitVec 32) (pkgMem : Bool) : Option (Option (Str × BitVec 32)) :=
  if hdrs ≠ [] then
    (printRrBody hdrs (leg = .callee) (some skip) pkgMem).map fun
      | .done oroute _ n => some (oroute, BitVec.ofNat 32 n)
      | _ => none
  else some (some ([], skip))

/-- `populate_leg_info`: the dialog, or an error. There is no result when it reads a branch that does not exist, or
outside of the table of `print_rr_body`. -/
def populateLegInfo (dlg : Legs) (msg : LegMsg) (t : LegTrans) (leg : Leg) (tag : Str) (pkgMem shmMem : Bool) :
    Option (Option Legs) :=
  match (if leg = .caller then msg.cseq else some (dlg.cseq .caller)), msg.contacts, msg.recordRoute with
  | some cseq, some [contact], some hdrs =>
    (skipRecs dlg t leg).bind fun skip =>
      (legRoutes hdrs leg skip pkgMem).map fun routes =>
        routes.bind fun (rrSet, n) =>
          let dlg := if leg = .caller then { dlg with fromRrNb := n } else dlg
          if shmMem then some (dlgSetLegInfo dlg tag rrSet contact cseq leg) else none
  | _, _, _ => some none

/-! ## The route set of the callee -/

/-- The number of entries that this server added: none, if the reply was generated here. -/
def LegTrans.Added (t : LegTrans) (a : Nat) : Prop :=
  if 0 ≤ t.relaiedReplyBranch then ∃ n, t.addedRr[t.relaiedReplyBranch.toNat]? = some n ∧ n.toNat = a else a = 0

/-- **What is skipped**: as many entries as were added, if none was in the request; else the same, if there is a
branch. -/
theorem skipRecs_callee {dlg : Legs} {t : LegTrans} {a : Nat} (ht : t.Added a) (hr : dlg.fromRrNb.toNat + 1 < 2 ^ 32) :
    (dlg.fromRrNb = 0 ∨ 0 ≤ t.relaiedReplyBranch) ∧ (∃ n, skipRecs dlg t .callee = some n ∧ n.toNat = a) ∨
      dlg.fromRrNb ≠ 0 ∧ skipRecs dlg t .callee = none := by
  rw [LegTrans.Added] at ht
  rw [skipRecs, LegTrans.addedRrAt]
  by_cases hb : 0 ≤ t.relaiedReplyBranch
  · rw [if_pos hb] at ht
    obtain ⟨n, hn, ha⟩ := ht
    have hone : dlg.fromRrNb + 1 ≠ 0 := by
      intro h
      have hsum := congrArg BitVec.toNat h
      rw [BitVec.toNat_add, show (1 : BitVec 32).toNat = 1 from rfl, show (0 : BitVec 32).toNat = 0 from rfl] at hsum
      omega
    rw [if_pos hb, if_pos hone, if_pos hb]
    exact .inl ⟨.inr hb, n, hn, ha⟩
  · rw [if_neg hb] at ht
    rw [if_neg hb, if_neg hb]
    by_cases hzero : dlg.fromRrNb = 0
    · left
      rw [hzero]
      exact ⟨.inl rfl, 0, rfl, ht.symm⟩
    · right
      simpa using hzero

theorem rrTexts_ne_nil : ∀ {hdrs : List RrHdr} {es : List Str}, rrTexts hdrs = some es → ∀ e ∈ es, e ≠ []
  | [], es, h => by
    cases h
    simp
  | none :: _, es, h => by cases h
  | some rrs :: hdrs, es, h => by
    obtain ⟨es', hes', rfl⟩ := map_eq_some_iff.mp h
    exact forall_mem_append.mpr ⟨forall_mem_map.mpr fun r _ => r.nonempty, rrTexts_ne_nil hes'⟩

variable {es : List Str}

theorem join_ne_nil (hes : ∀ e ∈ es, e ≠ []) (hne : es ≠ []) : join es ≠ [] := by
  intro hjoin
  obtain ⟨e, es, rfl⟩ := exists_cons_of_ne_nil hne
  have hlen := length_join hne
  have hpos : 0 < e.length := length_pos_iff.mpr (hes e mem_cons_self)
  rw [hjoin, map_cons, sum_cons, length_nil, length_cons] at hlen
  omega

theorem join_kept_ne (hes : ∀ e ∈ es, e ≠ []) {a b : Nat} (hab : a < b) (hb : b ≤ es.length) :
    join (kept true a es) ≠ join (kept true b es) := by
  show join (es.take (es.length - a)).reverse ≠ join (es.take (es.length - b)).reverse
  intro heq
  have hlong : es.take (es.length - a) ≠ [] := by
    intro hnil
    have := congrArg length hnil
    rw [length_take, length_nil] at this
    omega
  have hlen := congrArg length heq
  rw [length_join_reverse, length_join_reverse] at hlen
  have hsub : (es.take (es.length - b)).Sublist (es.take (es.length - a)) := take_sublist_take_left (by omega)
  have hsum := (hsub.map length).sum_le_sum fun _ _ => Nat.zero_le _
  have ha := length_join hlong
  rw [length_take] at ha
  by_cases hshort : es.take (es.length - b) = []
  · rw [hshort] at hlen
    have hne := join_ne_nil (fun e he => hes e (mem_of_mem_take he)) hlong
    exact hne (length_eq_zero_iff.mp hlen)
  · have hb' := length_join hshort
    rw [length_take] at hb'
    omega

theorem legRoutes_callee {hdrs : List RrHdr} (hes : rrTexts hdrs = some es) {skip : BitVec 32}
    (hskip : es.length < maxRrHdrs → skip.toNat < 2 ^ 31) :
    ∃ n, legRoutes hdrs .callee skip true =
      some (if es.length < maxRrHdrs then some (join (kept true skip.toNat es), n) else none) := by
  unfold legRoutes
  by_cases hne : hdrs = []
  · subst hne
    cases hes
    refine ⟨skip, ?_⟩
    rw [kept, take_nil]
    rfl
  · rw [if_pos hne]
    by_cases hlen : es.length < maxRrHdrs
    · have hnb : ∀ nb ∈ some skip, nb.toNat < 2 ^ 31 := by
        rintro nb h
        cases h
        exact hskip hlen
      obtain ⟨allocated, hrun, -⟩ := printRrBody_done hne true hes hlen hnb
      refine ⟨BitVec.ofNat 32 es.length, ?_⟩
      rw [decide_eq_true rfl, hrun, if_pos hlen]
      rfl
    · refine ⟨0, ?_⟩
      rw [printRrBody_error hne _ _ (by simp [hes, hlen]), if_neg hlen]
      rfl

theorem populateLegInfo_callee {dlg : Legs} {msg : LegMsg} {t : LegTrans} {tag uri : Str} {hdrs : List RrHdr}
    (hcontacts : msg.contacts = some [uri]) (hrr : msg.recordRoute = some hdrs) :
    populateLegInfo dlg msg t .callee tag true true = (skipRecs dlg t .callee).bind fun skip =>
      (legRoutes hdrs .callee skip true).map fun routes =>
        routes.map fun r => dlgSetLegInfo dlg tag r.1 uri (dlg.cseq .caller) .callee := by
  unfold populateLegInfo
  rw [hcontacts, hrr]
  refine bind_congr fun skip _ => ?_
  congr 1
  funext routes
  cases routes <;> rfl

/-- **The route set of the callee** is the one of the reply without the entries of the request and without those that
were added, reversed, exactly when there were none in the request and the reply has no more entries than the table. -/
theorem callee_route_set_iff {dlg : Legs} {msg : LegMsg} {t : LegTrans} {tag uri : Str} {hdrs : List RrHdr}
    {es : List Str} {a : Nat} (hcontacts : msg.contacts = some [uri]) (hrr : msg.recordRoute = some hdrs)
    (hes : rrTexts hdrs = some es) (ht : t.Added a) (hfresh : dlg.routeSet .callee = [])
    (hn : dlg.fromRrNb.toNat + a ≤ es.length) :
    (∃ dlg', populateLegInfo dlg msg t .callee tag true true = some (some dlg') ∧
        dlg'.routeSet .callee = join (kept true (dlg.fromRrNb.toNat + a) es)) ↔
      dlg.fromRrNb = 0 ∧ es.length < maxRrHdrs := by
  rw [populateLegInfo_callee hcontacts hrr]
  by_cases hlen : es.length < maxRrHdrs
  · have hlen' : es.length < 64 := hlen
    have hr : dlg.fromRrNb.toNat + 1 < 2 ^ 32 := by omega
    rcases skipRecs_callee ht hr with ⟨hzero, n, hskip, rfl⟩ | ⟨hzero, hskip⟩
    · have hn31 : es.length < maxRrHdrs → n.toNat < 2 ^ 31 := fun _ => by omega
      obtain ⟨m, hroutes⟩ := legRoutes_callee hes hn31
      rw [hskip, bind_some, hroutes, if_pos hlen]
      have hset :
          (dlgSetLegInfo dlg tag (join (kept true n.toNat es)) uri (dlg.cseq .caller) .callee).routeSet .callee =
            join (kept true n.toNat es) := by
        unfold dlgSetLegInfo
        dsimp only
        by_cases hnil : join (kept true n.toNat es) = []
        · rw [hnil, if_neg (by simp), hfresh]
        · rw [if_pos (mt length_eq_zero_iff.mp hnil), Function.update_self]
      constructor
      · rintro ⟨dlg', hdlg', hroute⟩
        obtain rfl := some.inj (some.inj hdlg')
        refine ⟨?_, hlen⟩
        by_contra hr
        have hpos : 0 < dlg.fromRrNb.toNat := Nat.pos_of_ne_zero fun h => hr (BitVec.eq_of_toNat_eq h)
        exact join_kept_ne (rrTexts_ne_nil hes) (by omega) hn (hset.symm.trans hroute)
      · rintro ⟨hr, -⟩
        refine ⟨_, rfl, hset.trans ?_⟩
        rw [hr, show (0 : BitVec 32).toNat = 0 from rfl, Nat.zero_add]
    · rw [hskip]
      exact iff_of_false (fun ⟨_, h, _⟩ => by cases h) fun h => hzero h.1
  · -- too many entries: nothing is stored
    refine iff_of_false (fun ⟨dlg', h, _⟩ => ?_) fun h => hlen h.2
    obtain ⟨n, -, h⟩ := bind_eq_some_iff.mp h
    obtain ⟨m, hroutes⟩ := legRoutes_callee hes (fun hl : es.length < maxRrHdrs => absurd hl hlen)
    rw [hroutes, if_neg hlen] at h
    cases h

def threeRoutes : LegMsg := ⟨none, some ["sip:b".toList], some threeRrs⟩

/-- The callee leg is stored for a reply of the first branch, which has one entry of this server. -/
def calleeRoutes (r : BitVec 32) : Option (Option Str) :=
  (populateLegInfo { Legs.unknown with fromRrNb := r } threeRoutes ⟨0, [1]⟩ .callee "t".toList true true).map fun dlg =>
    dlg.map fun dlg => dlg.routeSet .callee

/-- A reply with three entries, of which one was added. -/
theorem callee_route_set_first : (∃ dlg', populateLegInfo Legs.unknown threeRoutes ⟨0, [1]⟩ .callee [] true true =
      some (some dlg') ∧ dlg'.routeSet .callee = join (kept true (0 + 1) ["<a>".toList, "<b>".toList, "<c>".toList])) ↔
    (0 : BitVec 32) = 0 ∧ 3 < maxRrHdrs :=
  callee_route_set_iff rfl rfl (by decide) ⟨1, rfl, rfl⟩ rfl (by decide)

/-- One entry was in the request, and one is of this server: two are to be skipped, and one is. -/
theorem callee_route_set_kept : calleeRoutes 1 = some (some "<b>,<a>".toList) ∧
    join (kept true (1 + 1) ["<a>".toList, "<b>".toList, "<c>".toList]) = "<a>".toList := by
  decide +kernel

end OpenSer.Dialog
