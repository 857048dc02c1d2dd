import Mathlib.Data.BitVec
import OpenSer.Dialog.DlgHandlers

/-!
# The number of a dialog in the Record-Route

`dlg_onreq` writes the entry and the number of a dialog into a parameter of the Record-Route (`add_dlg_rr_param`), and
`dlg_onroute` reads them back from the Route of a later request (`parse_dlg_rr_param`) to look the dialog up.

* `addDlgRrParam_text`, `addDlgRrParam_neg`: the text that is written, and the numbers that are refused.
* `parseDlgRrParam_text`: the text is read back.
* `dlgId_roundTrip_iff`: the dialogs that are found by their own parameter.
-/

namespace OpenSer.Dialog

open List

def maxDlgRrParamName : Nat := 32

def rrDlgParamSize : Nat := 2 * 2 * 4 + 3 + maxDlgRrParamName

def dlgSeparator : Char := '.'

/-- What `add_dlg_rr_param` writes in front of the value. -/
def rrParamHead (rrParam : Str) : Str := ';' :: rrParam ++ ['=']

/-- `add_dlg_rr_param`: the text handed to `add_rr_param`, which may fail; `none` when the function returns -1. -/
def addDlgRrParam (rrParam : Str) (addRr : Str → Bool) (entry id : BitVec 32) : Option Str :=
  let buf := rrParamHead rrParam
  let hexEntry := int2reverseHex (rrDlgParamSize - buf.length) entry.toInt
  if hexEntry.2.2 = -1 then none
  else
    let buf := buf ++ hexEntry.1 ++ [dlgSeparator]
    let hexId := int2reverseHex (rrDlgParamSize - buf.length) id.toInt
    if hexId.2.2 = -1 then none
    else if addRr (buf ++ hexId.1) then some (buf ++ hexId.1)
    else none

/-- `parse_dlg_rr_param`: `h_entry` and `h_id`; `none` when it returns -1. The byte `next` behind the value is read when
the value has no separator; the length of the number is then -1. -/
def parseDlgRrParam (val : Str) (next : Char) : Option (Int × Int) :=
  let s := val.takeWhile (· ≠ dlgSeparator)
  let rest := val.drop s.length
  if rest.headD next ≠ dlgSeparator then none
  else if reverseHex2int s < 0 then none
  else if reverseHex2int rest.tail < 0 then none
  else some (reverseHex2int s, reverseHex2int rest.tail)

variable {rrParam : Str} {addRr : Str → Bool} {entry id : BitVec 32}

def dlgIdText (entry id : Nat) : Str := revHex entry ++ dlgSeparator :: revHex id

theorem int2reverseHex_entry (rrParam : Str) (hname : rrParam.length ≤ maxDlgRrParamName) (he : entry.toNat < 2 ^ 31) :
    int2reverseHex (rrDlgParamSize - (rrParamHead rrParam).length) entry.toInt =
      (revHex entry.toNat, rrDlgParamSize - (rrParamHead rrParam).length - (revHex entry.toNat).length, 1) ∧
      (revHex entry.toNat).length ≤ 8 := by
  have hlen : (rrParamHead rrParam).length = rrParam.length + 2 := by simp [rrParamHead]
  simp only [maxDlgRrParamName] at hname
  have hpow : 16 ^ 8 ≤ 16 ^ (rrDlgParamSize - (rrParamHead rrParam).length) := by
    apply Nat.pow_le_pow_right (by decide)
    simp only [rrDlgParamSize, maxDlgRrParamName]
    omega
  refine ⟨?_, length_revHex_le (by decide) (by omega)⟩
  rw [toInt_of_lt he]
  apply int2reverseHex_nonneg
  · simp only [rrDlgParamSize, maxDlgRrParamName]
    omega
  · omega

/-- **The text** for a number below 2^31. -/
theorem addDlgRrParam_text (hname : rrParam.length ≤ maxDlgRrParamName) (he : entry.toNat < 2 ^ 31)
    (hid : id.toNat < 2 ^ 31) (hadd : ∀ s, addRr s = true) :
    addDlgRrParam rrParam addRr entry id = some (rrParamHead rrParam ++ dlgIdText entry.toNat id.toNat) := by
  obtain ⟨hentry, hlen⟩ := int2reverseHex_entry rrParam hname he
  have hhead : (rrParamHead rrParam).length = rrParam.length + 2 := by simp [rrParamHead]
  simp only [maxDlgRrParamName] at hname
  have hbuf : (rrParamHead rrParam ++ revHex entry.toNat ++ [dlgSeparator]).length ≤ 43 := by
    simp only [length_append, length_cons, length_nil]
    omega
  have hroom : 8 ≤ rrDlgParamSize - (rrParamHead rrParam ++ revHex entry.toNat ++ [dlgSeparator]).length := by
    simp only [rrDlgParamSize, maxDlgRrParamName]
    omega
  have hidText := int2reverseHex_nonneg (n := id.toNat) (by omega)
    (lt_of_lt_of_le (b := 16 ^ 8) (by omega) (Nat.pow_le_pow_right (by decide) hroom))
  unfold addDlgRrParam
  simp only [hentry, toInt_of_lt hid, hidText, hadd, dlgIdText]
  simp

/-- **A number with the sign bit set is refused.** -/
theorem addDlgRrParam_neg (hname : rrParam.length ≤ maxDlgRrParamName) (he : entry.toNat < 2 ^ 31)
    (hid : 2 ^ 31 ≤ id.toNat) : addDlgRrParam rrParam addRr entry id = none := by
  obtain ⟨hentry, -⟩ := int2reverseHex_entry rrParam hname he
  unfold addDlgRrParam
  simp only [hentry]
  rw [if_neg (by decide), if_pos (int2reverseHex_neg _ (toInt_neg_of_le hid))]

theorem hexChar_ne_dlgSeparator : ∀ d < 16, hexChar d ≠ dlgSeparator := by decide

/-- **Round trip** of the value. -/
theorem parseDlgRrParam_text {entry id : Nat} (he : entry < 2 ^ 31) (hid : id < 2 ^ 31) (next : Char) :
    parseDlgRrParam (dlgIdText entry id) next = some ((entry : Int), (id : Int)) := by
  have hall : ∀ c ∈ revHex entry, decide (c ≠ dlgSeparator) = true := by
    intro c hc
    obtain ⟨d, hd, rfl⟩ := mem_revHex hc
    simpa using hexChar_ne_dlgSeparator d hd
  have htake : (dlgIdText entry id).takeWhile (· ≠ dlgSeparator) = revHex entry := by
    rw [dlgIdText, takeWhile_append_of_pos hall]
    simp
  have hdrop : (dlgIdText entry id).drop (revHex entry).length = dlgSeparator :: revHex id := by
    rw [dlgIdText, drop_left]
  unfold parseDlgRrParam
  simp only [htake, hdrop, headD_cons, tail_cons, reverseHex2int_revHex he, reverseHex2int_revHex hid]
  rw [if_neg (by simp), if_neg (by omega), if_neg (by omega)]

/-! ## Looking the dialog up -/

/-- A dialog is found by its parameter: the parameter is written, its value is read back, and `lookup_dlg` finds the
dialog. -/
def Shm.FoundById (m : Shm) (rrParam : Str) (d : Nat) : Prop :=
  ∃ val, addDlgRrParam rrParam (fun _ => true) (BitVec.ofNat 32 (m.cells d).hEntry) (m.cells d).hId =
      some (rrParamHead rrParam ++ val) ∧
    ∀ next, parseDlgRrParam val next = some (((m.cells d).hEntry : Int), ((m.cells d).hId.toNat : Int)) ∧
      (m.lookupDlg (m.cells d).hEntry (m.cells d).hId.toNat).2 = some d

theorem lookupDlg_self {m : Shm} {d : Nat} (hsize : (m.cells d).hEntry < m.size.toNat)
    (hd : d ∈ m.entries (m.cells d).hEntry) (hlive : (m.cells d).state ≠ .deleted)
    (huniq : ∀ x ∈ m.entries (m.cells d).hEntry, (m.cells x).hId = (m.cells d).hId → x = d) :
    (m.lookupDlg (m.cells d).hEntry (m.cells d).hId.toNat).2 = some d := by
  unfold Shm.lookupDlg
  rw [if_neg (by omega)]
  cases hfind : (m.entries (m.cells d).hEntry).find? fun x => (m.cells x).hId.toNat = (m.cells d).hId.toNat with
  | none => exact absurd (List.find?_eq_none.mp hfind d hd) (by simp)
  | some x =>
    have hx := List.find?_some hfind
    have hmem := mem_of_find?_eq_some hfind
    have hid : (m.cells x).hId = (m.cells d).hId := BitVec.eq_of_toNat_eq (by simpa using hx)
    obtain rfl := huniq x hmem hid
    simp only [if_neg hlive]

/-- **Dialogs are found by their own parameter exactly for the numbers below 2^31**: for every parameter name the module
accepts, every entry of a table whose size is an `int`, and every dialog linked there whose number no other dialog of
the entry has. -/
theorem dlgId_roundTrip_iff {m : Shm} {rrParam : Str} {d : Nat} (hname : rrParam.length ≤ maxDlgRrParamName)
    (hint : m.size.toNat < 2 ^ 31) (hsize : (m.cells d).hEntry < m.size.toNat) (hd : d ∈ m.entries (m.cells d).hEntry)
    (hlive : (m.cells d).state ≠ .deleted)
    (huniq : ∀ x ∈ m.entries (m.cells d).hEntry, (m.cells x).hId = (m.cells d).hId → x = d) :
    m.FoundById rrParam d ↔ (m.cells d).hId.toNat < 2 ^ 31 := by
  have hentry : (BitVec.ofNat 32 (m.cells d).hEntry).toNat = (m.cells d).hEntry := by
    rw [BitVec.toNat_ofNat, Nat.mod_eq_of_lt (by omega)]
  constructor
  · rintro ⟨val, hval, -⟩
    by_contra hneg
    rw [addDlgRrParam_neg hname (by omega) (by omega)] at hval
    cases hval
  · intro hid
    refine ⟨dlgIdText (m.cells d).hEntry (m.cells d).hId.toNat, ?_, fun next => ⟨?_, ?_⟩⟩
    · rw [addDlgRrParam_text hname (by omega) hid fun _ => rfl, hentry]
    · exact parseDlgRrParam_text (by omega) hid next
    · exact lookupDlg_self hsize hd hlive huniq

/-- The first dialog of a table whose numbers start at 1000 is found. -/
theorem dlgId_thousand : ((Shm.init 2 fun _ => 1000).linkDlg ['c'] ['f'] 1).FoundById ['d', 'i', 'd'] 0 := by
  have hentry : (((Shm.init 2 fun _ => 1000).linkDlg ['c'] ['f'] 1).cells 0).hEntry = 1 := by decide +kernel
  have hlist : ((Shm.init 2 fun _ => 1000).linkDlg ['c'] ['f'] 1).entries 1 = [0] := by decide +kernel
  apply (dlgId_roundTrip_iff (by decide) (by decide) ?_ ?_ (by decide +kernel) ?_).mpr (by decide +kernel)
  · decide +kernel
  · rw [hentry, hlist]
    simp
  · intro x hx _
    exact mem_singleton.mp hx

/-- The second dialog of an entry whose numbers start at `RAND_MAX` gets no parameter. -/
theorem dlgId_rand_max : ∃ m, m = ((Shm.init 2 fun _ => 2 ^ 31 - 1).linkDlg ['c'] ['f'] 1).linkDlg ['c'] ['d'] 1 ∧
    m.entries 1 = [0, 1] ∧ (m.cells 1).hId = 0x80000000 ∧
    addDlgRrParam ['d', 'i', 'd'] (fun _ => true) 1 (m.cells 1).hId = none ∧ ¬m.FoundById ['d', 'i', 'd'] 1 := by
  refine ⟨_, rfl, by decide +kernel, by decide +kernel, by decide +kernel, ?_⟩
  rintro ⟨val, hval, -⟩
  cases hval

end OpenSer.Dialog
