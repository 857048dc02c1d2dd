import OpenSer.Registrar.LastWrites

/-!
# The order of requests

Requests for one address of record come one after the other, with runs of the timer in between.

* `next`: a request or a run of the timer, which also notes the writes.
* `register_keeps`: what holds of a request that is in order (`InOrder`).
* `binding_order`: what holds of every sequence of such requests.
* `registry_over_runs`: what holds of every sequence of requests.
-/

namespace OpenSer.Registrar

open OpenSer.Usrloc Lib Function List

/-! ## Sequences of requests -/

/-- A record, and who wrote its bindings last. -/
structure Registry where
  store : Store
  last : Str → Option Write

inductive Event
  | register (m : Request) (env : Env)
  | timer (t : Nat) (ok : Nat → Bool)

/-- An event; the timer removes a record that has no contacts. -/
def next (cfg : Cfg) (x : Registry) : Event → Option Registry
  | .register m env => (save cfg m env x.store).map fun r => ⟨r.store, r.log.foldl (note m) x.last⟩
  | .timer t ok =>
    (timerUrecord cfg.usrloc x.store.loc t ok).map fun u =>
      ⟨{ x.store with loc := u, present := u.mem.contacts.isSome }, x.last⟩

/-- The binding of a URI was last written with the Call-ID of the request and a higher number, or with the same one
within the retransmission window. -/
def Stale (cfg : Cfg) (last : Str → Option Write) (m : Request) (uri : Str) : Prop :=
  ∃ w, last uri = some w ∧ w.callid = m.callid ∧
    ((decimal m.cseq : Int) < w.cseq ∨ decimal m.cseq = w.cseq ∧ (m.actTime : Int) < w.time + cfg.cseqDelay)

/-- A request changes no binding for which it is stale. -/
def LeavesNewer (cfg : Cfg) (x : Registry) (a : Event) (y : Registry) : Prop :=
  match a with
  | .register m _ => ∀ c z, view x.store.loc.mem c = some z → Stale cfg x.last m z.c → view y.store.loc.mem c = some z
  | .timer _ _ => True

/-- What a request has to meet. -/
structure InOrder (cfg : Cfg) (x : Registry) (m : Request) : Prop where
  range : decimal m.cseq < 2 ^ 31
  /-- The CSeq number of a star is not looked at. -/
  star : contactsOf m.fields = [] → checkContacts cfg.limits m.lastTime m.fields = .ok true →
    ∀ c z, view x.store.loc.mem c = some z → ¬Stale cfg x.last m z.c
  /-- The Call-ID that is stored is that of the first write, not of the last one. -/
  callid : ∀ c z, view x.store.loc.mem c = some z → Stale cfg x.last m z.c →
    z.c ∈ (updateList cfg m).map Contact.uri → z.callid = m.callid
  /-- With the highest number, the next one is negative, and a contact of a new record is inserted twice. -/
  apart : x.store.present = false → decimal m.cseq = 2 ^ 31 - 1 →
    (contactsOf m.fields).Pairwise fun c d => expiresOf cfg m c ≠ 0 → expiresOf cfg m d ≠ 0 → c.uri ≠ d.uri

def Admissible (cfg : Cfg) (x : Registry) : Event → Prop
  | .register m _ => InOrder cfg x m
  | .timer _ _ => True

section
variable {cfg : Cfg} {m : Request} {env : Env} {x : Registry} {l : List Nat}

theorem turnsOf_fst (env : Env) (cs : List Contact) : (env.turnsOf cs).map Prod.fst = cs := by
  rw [Env.turnsOf, map_map]
  exact zipIdx_map_fst 0 _

theorem Stale.le {last : Str → Option Write} {z : UContact} (h : Stale cfg last m z.c) {r : URecord} {c : Nat}
    (hag : Agrees r last) (hz : view r c = some z) : (decimal m.cseq : Int) ≤ z.vals.cseq := by
  obtain ⟨w, hw, -, hle⟩ := h
  rw [hag c z w hz hw]
  omega

/-- **A request that is in order.** -/
theorem register_keeps (env : Env) (hmatch : cfg.matching = .contactOnly) (hmode : cfg.usrloc.dbMode ≠ .dbOnly)
    (hs : x.store.Ok) (hsound : Sound x.store.loc.mem x.last) (hin : InOrder cfg x m) :
    ∃ r, save cfg m env x.store = some r ∧ r.store.Ok ∧ Sound r.store.loc.mem (r.log.foldl (note m) x.last) ∧
      ∀ c z, view x.store.loc.mem c = some z → Stale cfg x.last m z.c → view r.store.loc.mem c = some z := by
  obtain ⟨r, hr, hcase⟩ := save_cases cfg m env hs
  refine ⟨r, hr, hcase.ok hs hmode, ?_⟩
  obtain ⟨l, hl, hempty⟩ := hs
  -- without a record there are no bindings
  have hnone : x.store.present = false → ∀ c z, view x.store.loc.mem c ≠ some z := by
    intro habsent c z hz
    rw [view_of_empty (hempty habsent ▸ hl) c] at hz
    cases hz
  cases hcase with
  | refused | nothing | untried => exact ⟨hsound, fun c z hz _ => hz⟩
  | starred hcs hcheck hmark hthere hdel =>
    have hpresent : x.store.present = true := hthere.resolve_right hmode
    rw [if_pos hpresent] at hmark
    exact ⟨hsound.descends (starred_descends hl hmode hmark hdel),
      fun c z hz hstale => absurd hstale (hin.star hcs hcheck c z hz)⟩
  | starFailed _ _ hdb => exact absurd hdb hmode
  | updated _ _ hpack _ hruns =>
    have hci := packMsg_packed hin.range hpack
    have hcases := (hruns.updates hl).1
    refine ⟨updateRuns_sound hcases hmatch hci hsound, fun c z hz hstale => ?_⟩
    refine updateRuns_untouched hcases hmatch hci hz fun k hk hkc => ⟨?_, hstale.le hsound.agrees hz⟩
    refine hin.callid c z hz hstale ?_
    rw [← turnsOf_fst env (updateList cfg m), hkc, map_map]
    exact mem_map_of_mem hk
  | inserted hfine hpresent hruns herr =>
    refine ⟨insertRuns_sound (hruns.inserts hl).1 herr hmatch hin.range nofun ?_ hsound, fun c z hz =>
      absurd hz (hnone hpresent c z)⟩
    refine ⟨fun d z hz => absurd hz (hnone hpresent d z), fun _ d z hz => absurd hz (hnone hpresent d z),
      fun hlast => ?_⟩
    have hapart := hin.apart hpresent hlast
    rw [← turnsOf_fst env (contactsOf m.fields)] at hapart
    exact pairwise_map.mp hapart
  | undone _ hpresent hruns _ _ hdel =>
    have hsame := undone_unchanged hmode (hempty hpresent ▸ hl) hruns hdel
    rw [Unchanged, if_neg hmode] at hsame
    refine ⟨hsound.descends fun c y hy => ?_, fun c z hz => absurd hz (hnone hpresent c z)⟩
    have hrow := hsame c
    have hbefore : view x.store.loc.mem c = none := view_of_empty (hempty hpresent ▸ hl) c
    dsimp only [release] at hy
    rw [hbefore, hy] at hrow
    cases hrow
  | @stuck run _ _ hpresent hruns _ hstuck =>
    have hrec : run.state.record = false := by
      rw [← Bool.not_eq_true]
      exact fun h => hmode (hstuck h).1
    obtain ⟨hloc, hlog⟩ := insertRuns_noRecord (hruns.inserts hl).1 hrec
    have hfold : ∀ log : List Entry, (∀ e ∈ log, e.did = .skipped) → log.foldl (note m) x.last = x.last := by
      intro log
      induction log with
      | nil => exact fun _ => rfl
      | cons e log ih =>
        intro h
        obtain ⟨he, hlog⟩ := forall_mem_cons.mp h
        rw [foldl_cons, note, he]
        exact ih hlog
    refine ⟨?_, fun c z hz => absurd hz (hnone hpresent c z)⟩
    rw [hfold _ hlog, hloc]
    exact hsound

/-- **The order of requests**: as long as all requests are in order, a record never has two bindings for a URI, and no
request changes or removes a binding for which it is stale. Every request comes to an end. -/
theorem binding_order (cfg : Cfg) (hmatch : cfg.matching = .contactOnly) (hmode : cfg.usrloc.dbMode ≠ .dbOnly)
    (x : Registry) (hs : x.store.Ok) (hsound : Sound x.store.loc.mem x.last) (as : List Event)
    (has : Meets (next cfg) (Admissible cfg) x as) :
    Meets (next cfg) (fun x a => ∃ y, next cfg x a = some y ∧ Unique y.store.loc.mem ∧ LeavesNewer cfg x a y) x as := by
  refine Meets.imp_of_invariant (I := fun x => x.store.Ok ∧ Sound x.store.loc.mem x.last) ?_ has ⟨hs, hsound⟩
  rintro x a ⟨hs, hsound⟩ ha
  suffices h : ∃ y, next cfg x a = some y ∧ y.store.Ok ∧ Sound y.store.loc.mem y.last ∧ LeavesNewer cfg x a y by
    obtain ⟨y, hy, hok, hsound', hkeeps⟩ := h
    refine ⟨⟨y, hy, hsound'.unique, hkeeps⟩, fun z hz => ?_⟩
    obtain rfl := Option.some.inj (hy.symm.trans hz)
    exact ⟨hok, hsound'⟩
  cases a with
  | register m env =>
    obtain ⟨r, hr, hok, hsound', hkeeps⟩ := register_keeps env hmatch hmode hs hsound ha
    have hnext : next cfg x (.register m env) = some ⟨r.store, r.log.foldl (note m) x.last⟩ := by
      rw [next, hr]
      rfl
    exact ⟨_, hnext, hok, hsound', hkeeps⟩
  | timer t ok =>
    obtain ⟨l, hl, -⟩ := hs
    obtain ⟨u, hu, ⟨l', hl'⟩, hdesc⟩ := timer_descends cfg.usrloc t ok hl
    have hnext : next cfg x (.timer t ok) =
        some ⟨{ x.store with loc := u, present := u.mem.contacts.isSome }, x.last⟩ := by
      rw [next, hu]
      rfl
    refine ⟨_, hnext, ⟨l', hl', fun habsent => ?_⟩, hsound.descends hdesc, trivial⟩
    rw [Option.isSome_eq_false_iff, Option.isNone_iff_eq_none] at habsent
    exact head?_eq_none_iff.mp (hl'.dll.head_eq.symm.trans habsent)

def emptyRegistry : Registry := ⟨noRecord, fun _ => none⟩

theorem emptyRegistry_sound : Sound emptyRegistry.store.loc.mem emptyRegistry.last :=
  ⟨fun _ _ _ _ h => (by cases h), fun _ _ _ h => (by cases h)⟩

/-- Two requests of one client. -/
theorem binding_order_refreshed :
    Meets (next (plainCfg 0)) (fun x a => ∃ y, next (plainCfg 0) x a = some y ∧ Unique y.store.loc.mem ∧
      LeavesNewer (plainCfg 0) x a y) emptyRegistry
      [.register (plainRequest "a" "1" 1000 [plainContact "sip:x", plainContact "sip:y"]) (plainEnv 1000),
        .register (plainRequest "a" "2" 1010 [plainContact "sip:x"]) (plainEnv 1010)] := by
  refine binding_order (plainCfg 0) rfl (by decide) emptyRegistry noRecord_ok emptyRegistry_sound _
    ⟨?_, fun y hy => ⟨?_, ?_⟩⟩
  · refine ⟨by decide +kernel, fun hnil => absurd hnil (by decide +kernel), fun c z hz => ?_, fun _ hlast => ?_⟩
    · cases hz
    · exact absurd hlast (by decide +kernel)
  · cases hy
    refine ⟨by decide +kernel, fun hnil => absurd hnil (by decide +kernel), ?_, fun _ hlast => ?_⟩
    · rintro c z - ⟨w, hw, -, hold⟩
      have hfirst : w = ⟨"a".toList, 1, 1000⟩ := by
        change update (update (fun _ => none) "sip:x".toList _) "sip:y".toList _ z.c = some w at hw
        rw [update_apply, update_apply] at hw
        split at hw
        · exact (Option.some.inj hw).symm
        · split at hw
          · exact (Option.some.inj hw).symm
          · cases hw
      rw [hfirst] at hold
      exact absurd hold (by decide +kernel)
    · exact absurd hlast (by decide +kernel)
  · exact fun _ _ => trivial

/-- The second client to write a binding is not known by its Call-ID; and a contact that comes twice with the highest
number is inserted twice. -/
theorem binding_order_broken :
    (∃ x y, exec (next (plainCfg 0)) emptyRegistry
        [.register (plainRequest "a" "1" 1000 [plainContact "sip:x"]) (plainEnv 1000),
          .register (plainRequest "b" "5" 1010 [plainContact "sip:x"]) (plainEnv 1010)] = some x ∧
      next (plainCfg 0) x (.register (plainRequest "b" "4" 1020 [plainContact "sip:x"]) (plainEnv 1020)) = some y ∧
      x.last "sip:x".toList = some ⟨"b".toList, 5, 1010⟩ ∧
      (view x.store.loc.mem 0).map (fun z => (z.c, z.vals.cseq)) = some ("sip:x".toList, 5) ∧
      (view y.store.loc.mem 0).map (fun z => (z.c, z.vals.cseq)) = some ("sip:x".toList, 4)) ∧
    ∃ y, next (plainCfg 0) emptyRegistry (.register (plainRequest "a" "2147483647" 1000
        [plainContact "sip:x", plainContact "sip:x"]) (plainEnv 1000)) = some y ∧
      (view y.store.loc.mem 0).map UContact.c = some "sip:x".toList ∧
      (view y.store.loc.mem 1).map UContact.c = some "sip:x".toList := by
  refine ⟨⟨_, _, rfl, rfl, ?_, ?_, ?_⟩, _, rfl, ?_, ?_⟩
  · decide +kernel
  · decide +kernel
  · decide +kernel
  · decide +kernel
  · decide +kernel

end

/-- Every event comes to an end, and leaves the record in order. -/
theorem next_ok (cfg : Cfg) (hmode : cfg.usrloc.dbMode ≠ .dbOnly) {x : Registry} (hs : x.store.Ok) (a : Event) :
    ∃ y, next cfg x a = some y ∧ y.store.Ok := by
  cases a with
  | register m env =>
    obtain ⟨r, hr, hcase⟩ := save_cases cfg m env hs
    exact ⟨_, by rw [next, hr]; rfl, hcase.ok hs hmode⟩
  | timer t ok =>
    obtain ⟨l, hl, -⟩ := hs
    obtain ⟨u, hu, ⟨l', hl'⟩, -⟩ := timer_descends cfg.usrloc t ok hl
    refine ⟨_, by rw [next, hu]; rfl, l', hl', fun habsent => ?_⟩
    rw [Option.isSome_eq_false_iff, Option.isNone_iff_eq_none] at habsent
    exact head?_eq_none_iff.mp (hl'.dll.head_eq.symm.trans habsent)

/-- **Every sequence of requests** and timer runs comes to an end, whatever the requests ask for and whatever fails. It
leaves the contacts as one doubly linked list that has each of them once, and none without a record. -/
theorem registry_over_runs (cfg : Cfg) (hmode : cfg.usrloc.dbMode ≠ .dbOnly) (as : List Event) :
    ∃ x, exec (next cfg) emptyRegistry as = some x ∧ x.store.Ok := by
  have hgen : ∀ x : Registry, x.store.Ok → ∃ y, exec (next cfg) x as = some y ∧ y.store.Ok := by
    induction as with
    | nil => exact fun x hx => ⟨x, rfl, hx⟩
    | cons a as ih =>
      intro x hx
      obtain ⟨y, hy, hok⟩ := next_ok cfg hmode hx a
      rw [exec, hy]
      exact ih y hok
  exact hgen _ noRecord_ok

/-- Twice the same contact with the highest CSeq number, then two Contact header fields with a limit, of which the
second is not reached, a run of the timer, and a star. -/
theorem registry_over_twins : ∃ x, exec (next (plainCfg 5)) emptyRegistry
    [.register (plainRequest "a" "2147483647" 1000 [plainContact "sip:x", plainContact "sip:x"]) (plainEnv 1000),
      .register { plainRequest "b" "1" 1010 [] with
        fields := ⟨[.contact ⟨false, [plainContact "sip:y"]⟩, .contact ⟨false, [plainContact "sip:z"]⟩], none⟩ }
        (plainEnv 1010),
      .timer 9000 (fun _ => true),
      .register { plainRequest "b" "2" 9010 [] with fields := ⟨[.contact ⟨true, []⟩], some ⟨true, 0⟩⟩ }
        (plainEnv 9010)] = some x ∧ x.store.Ok :=
  registry_over_runs (plainCfg 5) (by decide) _

end OpenSer.Registrar
