import OpenSer.Tm.TransSteps

/-!
# What the upstream client sees

The codes that a transaction sends upstream: provisional ones, then at most one final code, and behind it nothing but
the 2xx of an INVITE.

* `Ordered`: that order, as a property of a list of codes.
* `Move.answers`: what a move does to the status and to the codes.
* `upstream_ordered`: the order holds in every run, and the status never leaves the final range.
-/

namespace OpenSer.Tm

open List
open Lib (exec)

/-- Provisional codes, then at most one final code, then 2xx codes if the transaction is an INVITE. -/
def Ordered (isInvite : Bool) (sent : List Nat) : Prop :=
  ∃ provisional final, sent = provisional ++ final ∧ (∀ code ∈ provisional, code < 200) ∧ (∀ code ∈ final, 200 ≤ code) ∧
    ∀ code ∈ final.tail, isInvite ∧ code < 300

variable {isInvite : Bool} {sent : List Nat} {code : Nat}

theorem Ordered.answer (h : ∀ c ∈ sent, c < 200) : Ordered isInvite (sent ++ [code]) := by
  by_cases hcode : code < 200
  · exact ⟨sent ++ [code], [], by simp, forall_mem_append.mpr ⟨h, forall_mem_singleton.mpr hcode⟩, by simp, by simp⟩
  · exact ⟨sent, [code], rfl, h, by simpa using hcode, by simp⟩

theorem Ordered.through (h : Ordered isInvite sent) (hinv : isInvite) (hlo : 200 ≤ code) (hhi : code < 300) :
    Ordered isInvite (sent ++ [code]) := by
  obtain ⟨provisional, final, rfl, hp, hf, htail⟩ := h
  refine ⟨provisional, final ++ [code], append_assoc .., hp, forall_mem_append.mpr
    ⟨hf, forall_mem_singleton.mpr hlo⟩, ?_⟩
  cases final with
  | nil => simp
  | cons x final => exact forall_mem_append.mpr ⟨htail, forall_mem_singleton.mpr ⟨hinv, hhi⟩⟩

/-- What a move does to the status and to the codes sent: nothing, or it sets the status of a transaction without a
final reply, or it sends the new status, which is then the first final reply or a 2xx of an INVITE. -/
def Answers (t t' : Trans) : Prop :=
  t'.isInvite = t.isInvite ∧
    (t'.status = t.status ∧ t'.sent = t.sent ∨ t.status < 200 ∧ t'.sent = t.sent ∨
      t.status < 200 ∧ t'.sent = t.sent ++ [t'.status] ∨
      200 ≤ t.status ∧ t.isInvite ∧ 200 ≤ t'.status ∧ t'.status < 300 ∧ t'.sent = t.sent ++ [t'.status])

variable {junk : Prop} {c : Option (Nat × Nat)} {x y : Custody} {t : Trans}

theorem Move.answers (hm : Move junk c x y) : Answers x.trans y.trans := by
  cases hm with
  | delayed status built =>
    obtain ⟨_, _, _, heq⟩ := cancelDelayed_eq status built
    rw [heq]
    exact ⟨rfl, .inl ⟨rfl, rfl⟩⟩
  | cancel b built =>
    obtain ⟨_, _, _, heq⟩ := cancelBranch_eq built
    rw [heq]
    exact ⟨rfl, .inl ⟨rfl, rfl⟩⟩
  | answer _ _ hs => exact ⟨rfl, .inr (.inr (.inl ⟨hs, rfl⟩))⟩
  | through _ hinv hs hlo hhi => exact ⟨rfl, .inr (.inr (.inr ⟨hs, hinv, hlo, hhi, rfl⟩))⟩
  | status code hs => exact ⟨rfl, .inr (.inl ⟨hs, rfl⟩)⟩
  | extend he =>
    have hinv := congrArg Trans.isInvite he.core
    have hstatus := congrArg Trans.status he.core
    have hsent := congrArg Trans.sent he.core
    exact ⟨hinv, .inl ⟨hstatus, hsent⟩⟩
  | _ => exact ⟨rfl, .inl ⟨rfl, rfl⟩⟩

theorem Move.status_final (hm : Move junk c x y) (h : 200 ≤ x.trans.status) : 200 ≤ y.trans.status := by
  obtain ⟨-, ⟨hs, -⟩ | ⟨hs, -⟩ | ⟨hs, -⟩ | ⟨-, -, hs, -⟩⟩ := hm.answers
  · exact hs ▸ h
  · exact absurd h (not_le.mpr hs)
  · exact absurd h (not_le.mpr hs)
  · exact hs

/-- The order holds, and before the final reply only provisional codes have been sent. -/
structure Trans.Upstream (t : Trans) : Prop where
  ordered : Ordered t.isInvite t.sent
  provisional : t.status < 200 → ∀ code ∈ t.sent, code < 200

theorem Move.upstream (hm : Move junk c x y) (hx : x.trans.Upstream) : y.trans.Upstream := by
  obtain ⟨hinv, ⟨hs, hsent⟩ | ⟨hs, hsent⟩ | ⟨hs, hsent⟩ | ⟨hs, hi, hlo, hhi, hsent⟩⟩ := hm.answers
  · refine ⟨?_, fun h => ?_⟩
    · rw [hinv, hsent]
      exact hx.ordered
    · rw [hsent]
      exact hx.provisional (hs ▸ h)
  · refine ⟨?_, fun _ => ?_⟩
    · rw [hinv, hsent]
      exact hx.ordered
    · rw [hsent]
      exact hx.provisional hs
  · refine ⟨?_, fun h => ?_⟩
    · rw [hsent]
      exact .answer (hx.provisional hs)
    · rw [hsent]
      exact forall_mem_append.mpr ⟨hx.provisional hs, forall_mem_singleton.mpr h⟩
  · refine ⟨?_, fun h => absurd hlo (not_le.mpr h)⟩
    rw [hinv, hsent]
    exact hx.ordered.through hi hlo hhi

theorem World.Reachable.upstream {w : World} (h : w.Reachable) : w.trans.Upstream := by
  refine h.invariant (fun w hw => ?_) Move.upstream
  obtain ⟨_, _, _, _, rfl⟩ := hw
  exact ⟨⟨[], [], rfl, by simp, by simp, by simp⟩, by simp⟩

/-- **Order of replies**: in every run the codes sent upstream are provisional ones, at most one first final code, and
behind it only the 2xx of an INVITE; no event takes the status back from a final one; and a transaction that is no
INVITE sends at most one final code. -/
theorem upstream_ordered {w : World} (h : w.Reachable) :
    Ordered w.trans.isInvite w.trans.sent ∧
      (∀ ev w', w.step ev = some w' → 200 ≤ w.trans.status → 200 ≤ w'.trans.status) ∧
      (w.trans.isInvite = false → (w.trans.sent.filter (200 ≤ ·)).length ≤ 1) := by
  refine ⟨h.upstream.ordered, fun ev w' hstep hs => ?_, fun hinv => ?_⟩
  · exact (World.step_moves h.sane hstep).invariant (I := fun x => 200 ≤ x.trans.status)
      (fun _ _ hx hm => hm.status_final hx) hs
  · obtain ⟨provisional, final, hsent, hp, -, htail⟩ := h.upstream.ordered
    have hnone : provisional.filter (200 ≤ ·) = [] := by
      refine filter_eq_nil_iff.mpr fun c hc => ?_
      simpa using hp c hc
    have hlen : final.length ≤ 1 := by
      cases final with
      | nil => simp
      | cons code final =>
        cases final with
        | nil => simp
        | cons code' final => exact absurd (htail code' (by simp)).1 (by simp [hinv])
    rw [hsent, filter_append, hnone]
    exact (length_filter_le _ _).trans hlen

/-- An INVITE with a provisional reply, a 200, and its retransmission. -/
theorem upstream_ordered_invite : ∃ w : World, w.Reachable ∧ w.trans.sent = [180, 200, 200] ∧
    Ordered w.trans.isInvite w.trans.sent ∧
      (∀ ev w', w.step ev = some w' → 200 ≤ w.trans.status → 200 ≤ w'.trans.status) ∧
      (w.trans.isInvite = false → (w.trans.sent.filter (200 ≤ ·)).length ≤ 1) := by
  obtain ⟨w, hr, hsent⟩ : ∃ w : World, w.Reachable ∧ w.trans.sent = [180, 200, 200] := World.exists_invite
    [.relay [.smooth], .received 0 180 .smooth, .received 0 200 .smooth, .received 0 200 .smooth] (by decide +kernel)
  exact ⟨w, hr, hsent, upstream_ordered hr⟩

end OpenSer.Tm
