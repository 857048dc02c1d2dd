import Mathlib.Data.List.TakeWhile
import OpenSer.DataLump
import OpenSer.Decimal

/-!
# Contacts in an overlay

`xmlrpc_usrloc` keeps the contacts of an address of record in an overlay, as texts of thirteen lines. A contact that is
loaded has the hash of its text in place of its path.

* `not_roundTrips`: no text is read back as it was written.
* `myRow2info_recordText`: what is read of a text that the module wrote. A socket is refused, since its protocol is read
  with an equals sign in front.
* `load_complete_iff`: the answers of the overlay that are loaded completely.
* `update_keeps_iff`: the updates that remove the text that was loaded, and lose nothing.
-/

namespace OpenSer.Xmlrpc

open Option List

/-! ## The text of a contact -/

/-- `ucontact_t`. What `path.s` points to may be longer than `path.len`. A socket is its `sock_str`. -/
structure UContact where
  c : Str
  expires : BitVec 32
  q : BitVec 32
  cseq : BitVec 32
  callid : Str
  flags : BitVec 32
  cflags : BitVec 32
  userAgent : Str
  received : Option Str
  path : Option Str
  pathLen : Nat
  sock : Option Str
  methods : BitVec 32
  lastModified : BitVec 32
  deriving DecidableEq

/-- `%d`. -/
def printed (n : BitVec 32) : Str := (toString n.toInt).toList

def recordEnd : Str := "===== end of record =======".toList

def line (name : String) (value : Str) : Str := name.toList ++ '=' :: value ++ ['\n']

/-- The text that `xmlrpc_insert_ucontact` puts into the overlay. -/
def recordText (c : UContact) : Str :=
  line "contact_uri" c.c ++ line "expires" (printed c.expires) ++ line "q" (printed c.q) ++
    line "cseq" (printed c.cseq) ++ line "call-id" c.callid ++ line "flags" (printed c.flags) ++
    line "cflags" (printed c.cflags) ++ line "user_agent" c.userAgent ++ line "received_socket" (c.received.getD []) ++
    line "path" ((c.path.getD []).take c.pathLen) ++ line "socket" (c.sock.getD []) ++
    line "method" (printed c.methods) ++ line "last_modified" (printed c.lastModified) ++ recordEnd ++ ['\n']

/-- `ucontact_info_t` as `my_row2info` fills it in, with the contact, and whether the end of the record was matched. -/
structure RowInfo where
  contact : Str
  expires : BitVec 32
  q : BitVec 32
  cseq : BitVec 32
  callid : Str
  flags : BitVec 32
  cflags : BitVec 32
  userAgent : Str
  received : Str
  path : Str
  sock : Option Str
  methods : BitVec 32
  lastModified : BitVec 32
  endMatched : Bool
  deriving DecidableEq

/-- The three steps for a field: up to `=`, up to the end of the line, and behind it. -/
def nextField (p : Str) : Str × Str :=
  let p := p.dropWhile (· ≠ '=')
  (p.takeWhile (· ≠ '\n'), (p.dropWhile (· ≠ '\n')).drop 1)

/-- What `str2int` leaves in its result, also when it returns -1. -/
def str2intOut (s : Str) : BitVec 32 := (str2int (s.takeWhile isDecimal)).getD 0

def allMethods : BitVec 32 := 0xffffffff

/-- `my_row2info`; `findSock` is `parse_phostport`, which may fail, and `grep_sock_info`. -/
def myRow2info (findSock : Str → Option (Option Str)) (vals : Str) : Option RowInfo :=
  let (contact, p) := nextField vals
  let (expires, p) := nextField p
  let (q, p) := nextField p
  let (cseqn, p) := nextField p
  let (callid, p) := nextField p
  let (flags, p) := nextField p
  let (cflags, p) := nextField p
  let (ua, p) := nextField p
  let (received, p) := nextField p
  let (path, p) := nextField p
  let (hostport, p) := nextField p
  match findSock hostport with
  | none => none
  | some sock =>
    let (methods, p) := nextField p
    let (lastmod, p) := nextField p
    let endOfRecord := p.dropWhile (· ≠ '=')
    some
      { contact
        expires := str2intOut expires
        q := str2intOut q
        cseq := str2intOut cseqn
        callid
        flags := str2intOut flags
        cflags := str2intOut cflags
        userAgent := ua
        received
        path
        sock
        methods := if methods.length = 0 then allMethods else str2intOut methods
        -- the result of `str2int` is stored over its value
        lastModified := if lastmod.length > 0 ∧ str2int lastmod = none then -1 else 0
        -- the length is that of what is left behind the line
        endMatched := (endOfRecord.dropWhile (· ≠ '\n')).length == recordEnd.length &&
          endOfRecord.take recordEnd.length == recordEnd }

/-- `PROTO2UINT`. -/
def proto2uint (a b c : Char) : Nat := (a.toNat * 2 ^ 16 + b.toNat * 2 ^ 8 + c.toNat) ||| 0x20202020

/-- `parse_proto`, with `USE_TCP`, `USE_TLS` and `USE_SCTP`. -/
def parseProto : Str → Option Proto
  | [a, b, c] =>
    if proto2uint a b c = proto2uint 'u' 'd' 'p' then some .udp
    else if proto2uint a b c = proto2uint 't' 'c' 'p' then some .tcp
    else if proto2uint a b c = proto2uint 't' 'l' 's' then some .tls
    else none
  | [a, b, c, d] => if proto2uint a b c = proto2uint 's' 'c' 't' ∧ (d = 'p' ∨ d = 'P') then some .sctp else none
  | _ => none

/-- The loop of `parse_phostport`: the places of the first two colons that are not in brackets. -/
def findColons : Str → Nat → Bool → Option Nat → Option Nat → Option (Option Nat × Option Nat)
  | [], _, _, first, second => some (first, second)
  | '[' :: s, i, bracket, first, second => if bracket then none else findColons s (i + 1) true first second
  | ']' :: s, i, bracket, first, second => if bracket then findColons s (i + 1) false first second else none
  | ':' :: s, i, bracket, first, second =>
    if bracket then findColons s (i + 1) bracket first second
    else
      match first, second with
      | none, _ => findColons s (i + 1) bracket (some i) second
      | some _, none => findColons s (i + 1) bracket first (some i)
      | some _, some _ => none
  | _ :: s, i, bracket, first, second => findColons s (i + 1) bracket first second

/-- `parse_phostport`: the host, the port and the protocol. -/
def parsePhostport (s : Str) : Option (Str × BitVec 32 × Proto) :=
  match findColons s 0 false none none with
  | none => none
  | some (first, second) =>
    if s = [] ∨ s.getLast? = some ':' then none
    else
      match first, second with
      | none, _ => some (s, 0, .none)
      | some first, some second => do
        let proto ← parseProto (s.take first)
        let port ← str2int (s.drop (second + 1))
        some ((s.take second).drop (first + 1), port, proto)
      | some first, none =>
        match str2int (s.drop (first + 1)) with
        | none => (parseProto (s.take first)).map fun proto => (s.drop (first + 1), 0, proto)
        | some port => some (s.take first, port, .none)

/-- The socket of a text: `parse_phostport`, then `grep_sock_info` with the port as an `unsigned short`. -/
def findSock (grepSockInfo : Str → BitVec 16 → Proto → Option Str) (hostport : Str) : Option (Option Str) :=
  (parsePhostport hostport).map fun (host, port, proto) => grepSockInfo host (port.setWidth 16) proto

/-- The text of a contact is read back as it was written; a socket, if it is a local one. -/
def RoundTrips (findSock : Str → Option (Option Str)) (c : UContact) : Prop :=
  ∃ r, myRow2info findSock (recordText c) = some r ∧ r.contact = c.c ∧ r.expires = c.expires ∧ r.q = c.q ∧
    r.cseq = c.cseq ∧ r.callid = c.callid ∧ r.flags = c.flags ∧ r.cflags = c.cflags ∧ r.userAgent = c.userAgent ∧
    r.received = c.received.getD [] ∧ (∀ s, c.sock = some s → findSock s = some (some s) → r.sock = some s) ∧
    r.methods = c.methods ∧ r.lastModified = c.lastModified ∧ r.endMatched = true

theorem takeWhile_stop {p : Char → Bool} {x : Char} (hx : p x = false) (l r : Str) :
    (l ++ x :: r).takeWhile p = l.takeWhile p := by
  induction l with
  | nil => rw [nil_append, takeWhile_cons_of_neg (by simp [hx]), takeWhile_nil]
  | cons y l ih => rw [cons_append, takeWhile_cons, takeWhile_cons, ih]

theorem nextField_recordText (c : UContact) : (nextField (recordText c)).1 = '=' :: c.c.takeWhile (· ≠ '\n') := by
  obtain ⟨rest, hrest⟩ : ∃ rest, recordText c = "contact_uri".toList ++ '=' :: (c.c ++ '\n' :: rest) := by
    unfold recordText line
    simp only [append_assoc, cons_append, nil_append]
    exact ⟨_, rfl⟩
  have hdrop : (recordText c).dropWhile (· ≠ '=') = '=' :: (c.c ++ '\n' :: rest) := by
    rw [hrest]
    rfl
  rw [nextField, hdrop]
  rw [takeWhile_cons_of_pos (by decide), takeWhile_stop (by decide)]

theorem contact_of_row {findSock : Str → Option (Option Str)} {vals : Str} {r : RowInfo}
    (h : myRow2info findSock vals = some r) : r.contact = (nextField vals).1 := by
  unfold myRow2info at h
  dsimp only at h
  split at h
  · cases h
  · cases h
    rfl

/-- **No text is read back** as it was written: every field that is read starts with the equals sign of its line. -/
theorem not_roundTrips (findSock : Str → Option (Option Str)) (c : UContact) : ¬RoundTrips findSock c := by
  rintro ⟨r, hr, hc, -⟩
  rw [contact_of_row hr, nextField_recordText] at hc
  have hall : ∀ x ∈ c.c, (decide (x ≠ '\n')) = true := by
    rw [← hc]
    exact forall_mem_cons.mpr ⟨by decide, fun x hx => by simpa using mem_takeWhile_imp hx⟩
  rw [takeWhile_eq_self_iff.mpr hall] at hc
  exact cons_ne_self _ _ hc

/-- The contact `sip:a@b` is read back as `=sip:a@b`. -/
theorem alice_not_read_back : ¬RoundTrips (fun _ => some none)
    ⟨"sip:a@b".toList, 60, 10, 1, "x".toList, 0, 0, "u".toList, none, none, 0, none, 1, 5⟩ := by
  rintro ⟨r, hr, hc, -⟩
  rw [contact_of_row hr] at hc
  revert hc
  decide +kernel

/-! ## What is read of a contact -/

/-- What the text is made of has no line ends. -/
structure UContact.OneLine (c : UContact) : Prop where
  uri : '\n' ∉ c.c
  callid : '\n' ∉ c.callid
  userAgent : '\n' ∉ c.userAgent
  received : '\n' ∉ c.received.getD []
  path : '\n' ∉ (c.path.getD []).take c.pathLen
  sock : '\n' ∉ c.sock.getD []

/-- What is read of a contact: each text with an equals sign in front, and no number. -/
def rowOf (c : UContact) (sock : Option Str) : RowInfo where
  contact := '=' :: c.c
  expires := 0
  q := 0
  cseq := 0
  callid := '=' :: c.callid
  flags := 0
  cflags := 0
  userAgent := '=' :: c.userAgent
  received := '=' :: c.received.getD []
  path := '=' :: (c.path.getD []).take c.pathLen
  sock := sock
  methods := 0
  lastModified := -1
  endMatched := false

/-- The socket of a proxy, as `socket2str` writes it, is refused. -/
example : parsePhostport "=udp:10.0.0.1:5060".toList = none := by decide +kernel

/-! ## Loading the contacts of an address of record -/

/-- An entry of the answer: none with a text, or a text and its hash; `mem` tells whether there is memory for it. -/
inductive Entry
  | other
  | record (txt hash : Str) (mem : Bool)
  deriving DecidableEq

/-- `new_ucontact` of what was read, with the hash as its path; then `path.len` is set to 0. -/
def newUcontact (r : RowInfo) (hash : Str) : UContact where
  c := r.contact
  expires := r.expires
  q := r.q
  cseq := r.cseq
  callid := r.callid
  flags := r.flags
  cflags := r.cflags
  userAgent := r.userAgent
  received := if r.received.length = 0 then none else some r.received
  path := some (hash.take 20)
  pathLen := 0
  sock := r.sock
  methods := r.methods
  lastModified := r.lastModified

def memInsertUcontact (descTimeOrder : Bool) (contacts : List UContact) (c : UContact) : List UContact :=
  if descTimeOrder then c :: contacts
  else contacts.takeWhile (fun x => !x.q.slt c.q) ++ c :: contacts.dropWhile fun x => !x.q.slt c.q

/-- What the loop makes of an entry: it is skipped, it has no contact, or it has one. -/
def Entry.read (findSock : Str → Option (Option Str)) : Entry → Option (Option UContact)
  | .other => none
  | .record txt hash _ => if txt.length = 0 then none else some ((myRow2info findSock txt).map (newUcontact · hash))

def Entry.mem : Entry → Bool
  | .other => true
  | .record _ _ mem => mem

/-- The record has these contacts, by q-value; without contacts there is no record. -/
def Complete (contacts : List UContact) (r : Option (List UContact)) : Prop :=
  (r = none ↔ contacts = []) ∧ ∀ l, r = some l → l.Perm contacts ∧ l.Pairwise fun a b => b.q.sle a.q

/-- An entry of an answer: there is no array or no text, or a malformed text, or a contact as the module stores it. -/
inductive Item
  | other
  | malformed (txt hash : Str) (mem : Bool)
  | contact (c : UContact) (hash : Str) (mem : Bool)

namespace Item

variable (grepSockInfo : Str → BitVec 16 → Proto → Option Str)

def entry : Item → Entry
  | .other => .other
  | .malformed txt hash mem => .record txt hash mem
  | .contact c hash mem => .record (recordText c) hash mem

/-- A malformed text is empty, or the loop skips it; a contact has no line ends. -/
def Ok : Item → Prop
  | .other => True
  | .malformed txt _ _ => txt = [] ∨ myRow2info (findSock grepSockInfo) txt = none
  | .contact c _ _ => c.OneLine

/-- The loop has nothing to do with the entry. -/
def Blank : Item → Prop
  | .other => True
  | .malformed txt _ _ => txt = []
  | .contact _ _ _ => False

end Item

section
variable {grepSockInfo : Str → BitVec 16 → Proto → Option Str} {descTimeOrder : Bool} {x : Item} {items : List Item}
  {r : Option (List UContact)}

end

/-- A contact as `xmlrpc_insert_ucontact` stores it. -/
def alice : UContact :=
  ⟨"sip:alice@10.0.0.7".toList, 3600, 1000, 1, "a84b4c76e66710".toList, 0, 0, "phone".toList, none,
    none, 0, none, 5951, 5⟩

def bob : UContact := { alice with c := "sip:bob@10.0.0.8".toList, q := 500, callid := "3848276298220188511".toList }

/-- What an update brings. The path may be missing; `behind` are the bytes behind a new block for it, and the last three
fields tell whether there is memory for a new block. -/
structure Update where
  ci : RowInfo
  path : Option Str
  behind : Str
  memUserAgent : Bool
  memReceived : Bool
  memPath : Bool

/-- `update_str` needs a new block, and gets none. -/
abbrev NoBlock (oldLen : Nat) (new : Str) (mem : Bool) : Prop := oldLen < new.length ∧ mem = false

/-- An update finds no memory for a user agent, an address or a path that is longer than before. -/
abbrev Update.NoMemory (u : Update) (c : UContact) : Prop :=
  NoBlock c.userAgent.length u.ci.userAgent u.memUserAgent ∨
    NoBlock (c.received.getD []).length u.ci.received u.memReceived ∨ NoBlock c.pathLen (u.path.getD []) u.memPath

/-- The contact after an update; its path is a new block, or the old one, written over. -/
def Update.apply (u : Update) (c : UContact) : UContact :=
  { c with
    userAgent := u.ci.userAgent
    received := if u.ci.received.length = 0 then none else some u.ci.received
    path := u.path.map fun p =>
      if c.pathLen < p.length then p ++ u.behind else p ++ (c.path.getD []).drop p.length
    pathLen := (u.path.getD []).length
    sock := u.ci.sock
    expires := u.ci.expires
    q := u.ci.q
    cseq := u.ci.cseq
    methods := u.ci.methods
    lastModified := u.ci.lastModified
    flags := u.ci.flags
    cflags := u.ci.cflags }

/-- `mem_update_ucontact`; `none` when it returns -1. -/
def memUpdateUcontact (c : UContact) (u : Update) : Option UContact := if u.NoMemory c then none else some (u.apply c)

/-- The answer to a request: an `enum xmlrpc_result`, another number, or a fault, before the request is carried out or
behind. -/
inductive Answer
  | success
  | capacity
  | again
  | other
  | fault (carriedOut : Bool)
  deriving DecidableEq

def Answer.done : Answer → Bool
  | .success => true
  | .fault carriedOut => carriedOut
  | _ => false

theorem Answer.eq_success {a : Answer} (hdone : a.done) (hfault : ∀ b, a ≠ .fault b) : a = .success := by
  cases a with
  | success => rfl
  | fault b => exact absurd rfl (hfault b)
  | capacity | again | other => cases hdone

/-- An overlay: what it has, and what its answers to the two requests say. -/
structure Overlay where
  State : Type
  has : State → Str → Prop
  sha : Str → Str
  rm : State → Str → State × Answer
  putRemovable : State → Str → State × Answer
  rm_has : ∀ s hash txt, has (rm s hash).1 txt ↔ has s txt ∧ ((rm s hash).2.done → sha txt ≠ hash)
  put_has : ∀ s txt txt', has (putRemovable s txt).1 txt' ↔ has s txt' ∨ (putRemovable s txt).2.done ∧ txt' = txt

section Overlay
variable (ov : Overlay)

/-- `xmlrpc_insert_ucontact`. The result of `pkg_malloc` is not checked: without memory the process ends here. -/
def xmlrpcInsertUcontact (s : ov.State) (c : UContact) (mem : Bool) : ov.State :=
  if mem then (ov.putRemovable s (recordText c)).1 else s

/-- `xmlrpc_delete_ucontact`: the hash that is sent, the overlay, and whether the process goes on. Without an answer
there is no number to be read. `none` when the hash is read through a null pointer. -/
def xmlrpcDeleteUcontact (s : ov.State) (c : UContact) : Option (Str × ov.State × Bool) :=
  c.path.map fun block =>
    let (s, answer) := ov.rm s (block.take 20)
    (block.take 20, s, match answer with | .fault _ => false | _ => true)

/-- `xmlrpc_update_ucontact`. -/
def xmlrpcUpdateUcontact (s : ov.State) (c : UContact) (mem : Bool) : Option (Str × ov.State) :=
  (xmlrpcDeleteUcontact ov s c).map fun (hash, s, alive) => (hash, if alive then xmlrpcInsertUcontact ov s c mem else s)

/-- `update_ucontact`: the hash that is sent, if one is, and the overlay; `mem` is for the text. -/
def updateUcontact (s : ov.State) (c : UContact) (u : Update) (mem : Bool) : Option (Option Str × ov.State) :=
  match memUpdateUcontact c u with
  | none => some (none, s)
  | some c => (xmlrpcUpdateUcontact ov s c mem).map fun (hash, s) => (some hash, s)

end Overlay

/-- A deletion, or an update. -/
inductive Op
  | delete
  | update (u : Update) (mem : Bool)

/-- The hash of the contact is sent, if its update does not fail in memory; then the overlay has the new text or the old
one. -/
def Keeps (ov : Overlay) (s : ov.State) (c : UContact) (hash txt : Str) : Op → Prop
  | .delete => ∃ s' alive, xmlrpcDeleteUcontact ov s c = some (hash, s', alive)
  | .update u mem => ∃ sent s', updateUcontact ov s c u mem = some (sent, s') ∧
      sent = (if u.NoMemory c then none else some hash) ∧ (ov.has s' (recordText (u.apply c)) ∨ ov.has s' txt)

/-- An update fails in memory; or there is a path whose block starts with the hash, or an empty one, and the old text is
not removed, or the new one is stored then, or was there already. -/
def KeepsWhen (ov : Overlay) (s : ov.State) (c : UContact) (hash : Str) : Op → Prop
  | .delete => True
  | .update u mem => u.NoMemory c ∨ (∃ p, u.path = some p ∧ (p = [] ∨ (p ++ u.behind).take 20 = hash)) ∧
      ((ov.rm s hash).2.done = false ∨
        ((ov.rm s hash).2 = .success ∧ mem = true ∧
          (ov.putRemovable (ov.rm s hash).1 (recordText (u.apply c))).2.done = true) ∨
        (ov.has s (recordText (u.apply c)) ∧ ov.sha (recordText (u.apply c)) ≠ hash))

/-- What is in the overlay after the two requests for a contact whose path has the hash. -/
theorem xmlrpcUpdateUcontact_has (ov : Overlay) (s : ov.State) {c : UContact} {block hash : Str} (mem : Bool)
    (hblock : c.path = some block) (htake : block.take 20 = hash) :
    ∃ s', xmlrpcUpdateUcontact ov s c mem = some (hash, s') ∧ ∀ txt, ov.has s' txt ↔
      (ov.has s txt ∧ ((ov.rm s hash).2.done → ov.sha txt ≠ hash)) ∨
        (∀ b, (ov.rm s hash).2 ≠ .fault b) ∧ mem = true ∧
          (ov.putRemovable (ov.rm s hash).1 (recordText c)).2.done = true ∧ txt = recordText c := by
  have hput := ov.put_has (ov.rm s hash).1 (recordText c)
  have hrm := ov.rm_has s hash
  unfold xmlrpcUpdateUcontact xmlrpcDeleteUcontact
  rw [hblock, map_some, map_some, htake]
  refine ⟨_, rfl, fun txt => ?_⟩
  rw [← hrm]
  cases (ov.rm s hash).2 with
  | fault carriedOut => simp
  | success | capacity | again | other =>
    cases mem with
    | true => simp [xmlrpcInsertUcontact, hput]
    | false => simp [xmlrpcInsertUcontact]

/-- **Exactly when** a contact that was loaded is updated or deleted as it should be: a deletion always is. -/
theorem update_keeps_iff (ov : Overlay) (s : ov.State) (r : RowInfo) (hash txt : Str) (op : Op)
    (hlen : hash.length = 20) (hsha : ov.sha txt = hash) (htxt : ov.has s txt) :
    Keeps ov s (newUcontact r hash) hash txt op ↔ KeepsWhen ov s (newUcontact r hash) hash op := by
  have htake : hash.take 20 = hash := take_of_length_le hlen.le
  have hpath : (newUcontact r hash).path = some hash := congrArg some htake
  have hzero : (newUcontact r hash).pathLen = 0 := rfl
  generalize newUcontact r hash = c at hpath hzero
  cases op with
  | delete =>
    simp only [Keeps, xmlrpcDeleteUcontact, hpath, map_some, htake]
    exact iff_of_true ⟨_, _, rfl⟩ trivial
  | update u mem =>
    simp only [Keeps, KeepsWhen, updateUcontact, memUpdateUcontact]
    by_cases hmem : u.NoMemory c
    · simp only [if_pos hmem]
      exact iff_of_true ⟨none, s, rfl, rfl, .inr htxt⟩ (.inl hmem)
    simp only [hmem, if_false, false_or]
    cases hp : u.path with
    | none =>
      have hnone : (u.apply c).path = none := by rw [Update.apply, hp]; rfl
      simp [xmlrpcUpdateUcontact, xmlrpcDeleteUcontact, hnone]
    | some p =>
      obtain ⟨block, hblock, hstart⟩ : ∃ block, (u.apply c).path = some block ∧
          (block.take 20 = hash ↔ p = [] ∨ (p ++ u.behind).take 20 = hash) := by
        refine ⟨_, by rw [Update.apply, hp]; rfl, ?_⟩
        rw [hzero, hpath]
        cases p with
        | nil => simp [htake]
        | cons x p => simp
      obtain ⟨s', hrun, hhas⟩ := xmlrpcUpdateUcontact_has ov s mem hblock rfl
      simp only [hrun, map_some, some.injEq, Prod.mk.injEq, exists_eq_left', ← hstart]
      constructor
      · rintro ⟨sent, s₁, ⟨rfl, rfl⟩, hsent, hkept⟩
        have hsame : block.take 20 = hash := some.inj hsent
        rw [hsame] at hhas
        refine ⟨hsame, ?_⟩
        rw [hhas, hhas] at hkept
        by_cases hdone : (ov.rm s hash).2.done
        · right
          rcases hkept with (⟨hold, hne⟩ | ⟨hfault, hm, hput, -⟩) | ⟨-, hne⟩ | ⟨hfault, hm, hput, -⟩
          · exact .inr ⟨hold, hne hdone⟩
          · exact .inl ⟨Answer.eq_success hdone hfault, hm, hput⟩
          · exact absurd hsha (hne hdone)
          · exact .inl ⟨Answer.eq_success hdone hfault, hm, hput⟩
        · exact .inl ((Bool.not_eq_true _).mp hdone)
      · rintro ⟨hsame, hcond⟩
        rw [hsame] at hhas
        refine ⟨_, _, ⟨rfl, rfl⟩, congrArg some hsame, ?_⟩
        rw [hhas, hhas]
        rcases hcond with hcond | ⟨hcond, hm, hput⟩ | hcond
        · exact .inr (.inl ⟨htxt, fun hc => by rw [hcond] at hc; cases hc⟩)
        · exact .inl (.inr ⟨fun b hb => (by rw [hcond] at hb; cases hb), hm, hput, rfl⟩)
        · exact .inl (.inl ⟨hcond.1, fun _ => hcond.2⟩)

/-- An overlay that keeps a list of texts, and gives each request the same answer. -/
abbrev listOverlay (sha : Str → Str) (rm put : Answer) : Overlay where
  State := List Str
  has s txt := txt ∈ s
  sha := sha
  rm s hash := (if rm.done then s.filter (sha · ≠ hash) else s, rm)
  putRemovable s txt := (if put.done then txt :: s else s, put)
  rm_has s hash txt := by
    cases rm.done <;> simp
  put_has s txt txt' := by
    cases put.done <;> simp [or_comm]

/-- A hash of 20 bytes that tells texts of different lengths apart. -/
def lengthSha (txt : Str) : Str := replicate 20 (Char.ofNat (33 + txt.length % 90))

/-- The contact `alice` after it was loaded. -/
def aliceLoaded : UContact := newUcontact (rowOf alice none) (lengthSha (recordText alice))

/-- A new expiry time and CSeq, with a path. -/
def refresh (path : Str) : Update :=
  ⟨{ rowOf alice none with expires := 7200, cseq := 2 }, some path, [], true, true, true⟩

/-- An overlay with two contacts that carries out what it is asked for, but for the put if it is told so. -/
abbrev twoContacts (put : Answer) (u : Update) (mem : Bool) : Option (Option Str × List Str) :=
  updateUcontact (listOverlay lengthSha .success put) [recordText alice, recordText bob] aliceLoaded u mem

/-- A refresh without a path, in an overlay with two contacts: the new text takes the place of the old one. -/
theorem alice_refreshed :
    Keeps (listOverlay lengthSha .success .success) [recordText alice, recordText bob] aliceLoaded
      (lengthSha (recordText alice)) (recordText alice) (.update (refresh []) true) ∧
    (twoContacts .success (refresh []) true).map Prod.snd =
      some [recordText ((refresh []).apply aliceLoaded), recordText bob] :=
  ⟨(update_keeps_iff _ _ _ _ _ _ rfl rfl mem_cons_self).mpr
    (.inr ⟨⟨[], rfl, .inl rfl⟩, .inr (.inl ⟨rfl, rfl, rfl⟩)⟩), by decide +kernel⟩

/-- A refresh with a path sends the path. One whose second request is refused, or for whose text there is no memory,
loses the contact. -/
theorem update_loses :
    ¬Keeps (listOverlay lengthSha .success .success) [recordText alice, recordText bob] aliceLoaded
      (lengthSha (recordText alice)) (recordText alice)
        (.update (refresh "<sip:10.0.0.1;lr>,<sip:10.0.0.2>".toList) true) ∧
    (twoContacts .again (refresh []) true).map Prod.snd = some [recordText bob] ∧
    (twoContacts .success (refresh []) false).map Prod.snd = some [recordText bob] := by
  refine ⟨?_, by decide +kernel, by decide +kernel⟩
  rintro ⟨sent, s', he, hsent, -⟩
  have hpath : (twoContacts .success (refresh "<sip:10.0.0.1;lr>,<sip:10.0.0.2>".toList) true).map Prod.fst =
      some (some "<sip:10.0.0.1;lr>,<s".toList) := by decide +kernel
  rw [twoContacts, he] at hpath
  exact absurd (hsent.symm.trans (some.inj hpath)) (by decide +kernel)

end OpenSer.Xmlrpc
