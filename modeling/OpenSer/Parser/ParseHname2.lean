import OpenSer.Parser.Keys

/-!
# The header name parser

`parse_hname2` of `parse_hname2.c`, with the macros of the `case_*.h` files. A macro is a tree of tests; what follows a
macro that falls through is its argument `rest`.

* `holds_spells`: a test asks for a class of bytes at each position it moves over.
* `parseHname2`: the parser.
-/

namespace OpenSer.Parser.Hname2

open Lib.Switch

/-- The types of `hf.h` that the parser gives. -/
inductive HdrType
  | error | other | via | to | from_ | cseq | callId | contact | maxForwards | route | recordRoute | path | contentType
  | contentLength | authorization | expires | proxyAuth | supported | proxyRequire | unsupported |
      allow | event | accept
  | acceptLanguage | organization | priority | subject | userAgent | acceptDisposition | contentDisposition | diversion
  | rpid | referTo | sessionExpires | minSe | ppi | pai | privacy | retryAfter
  deriving Repr, DecidableEq

/-! ## Tests -/

/-- What a test asks of one byte: a value once the bit 0x20 is set, or a value. -/
inductive ByteClass
  | lower (b : UInt8)
  | byte (b : UInt8)
  deriving Repr, DecidableEq

def ByteClass.reads (x : UInt8) : ByteClass → Bool
  | .lower b => lowerByte x == b
  | .byte b => x == b

/-- Two classes without a common byte. -/
def ByteClass.apart : ByteClass → ByteClass → Bool
  | .lower a, .lower b => a != b
  | .byte a, .byte b => a != b
  | .lower a, .byte b => lowerByte b != a
  | .byte a, .lower b => lowerByte a != b

/-- The tests: `LOWER_DWORD(READ(p)) == key`, and comparisons of the next bytes. -/
inductive Test
  | dword (key : Key)
  | bytes (cs : List ByteClass)
  deriving DecidableEq

def Test.holds (m : Nat → UInt8) : Test → Nat → Bool
  | .dword key, p => lowerDword (read m p) == key.val
  | .bytes cs, p => spells (fun x c => c.reads x) m cs p

def Test.len : Test → Nat
  | .dword _ => 4
  | .bytes cs => cs.length

def Test.word : Test → List ByteClass
  | .dword key => key.bytes.map .lower
  | .bytes cs => cs

theorem Test.len_word (t : Test) : t.len = t.word.length := by
  cases t <;> rfl

theorem apart_reads (x : UInt8) (c d : ByteClass) (h : c.apart d = true) (hc : c.reads x = true) :
    d.reads x = false := by
  cases c with
  | lower a =>
    cases d with
    | lower b => simp_all [ByteClass.apart, ByteClass.reads]
    | byte b =>
      simp only [ByteClass.apart, ByteClass.reads, bne_iff_ne, beq_iff_eq, beq_eq_false_iff_ne] at h hc ⊢
      rintro rfl
      exact h hc
  | byte a => cases d <;> simp_all [ByteClass.apart, ByteClass.reads]

/-- **A test asks for a class of bytes at each position it moves over.** -/
theorem holds_spells (m : Nat → UInt8) (t : Test) (p : Nat) :
    t.holds m p = spells (fun x (c : ByteClass) => c.reads x) m t.word p := by
  cases t with
  | bytes cs => rfl
  | dword key =>
    rw [Bool.eq_iff_iff]
    simp only [Test.holds, beq_iff_eq, read_lower_iff]
    simp only [Test.word, Key.bytes, List.map_cons, List.map_nil, List.cons.injEq, spells, ByteClass.reads,
      Bool.and_eq_true, beq_iff_eq]

/-! ## Macros -/

/-- Where a macro leaves to: `return (p)` with the type and the length set; `goto dc_end` with the type set, `back`
bytes before the bytes that were tested end; `goto other`. -/
inductive Goto
  | ret (type : HdrType) (len : Nat)
  | dcEnd (type : HdrType) (back : Nat)
  | other
  deriving Repr, DecidableEq

/-- A macro. -/
abbrev Case := Tree Test Goto

def other : Case := .out .other

def dcEnd (type : HdrType) : Case := .out (.dcEnd type 0)

/-- `case key: p += 4; ...` -/
def onKey (key : Key) (body rest : Case) : Case := .test (.dword key) body rest

/-- `if (LOWER_BYTE(*p) == c) { p++; ... }` -/
def onByte (c : Char) (body rest : Case) : Case := .test (.bytes [.lower c.toUInt8]) body rest

/-- The two ends of a name whose last key takes in the colon or a space. -/
def onEnds (key1 key2 : Key) (type : HdrType) (len : Nat) (rest : Case) : Case :=
  onKey key1 (.out (.ret type len)) (onKey key2 (dcEnd type) rest)

/-! ### `case_acce.h` -/

section
variable (rest : Case)

def ageCase : Case := onEnds .age1 .age2 .acceptLanguage 15 rest

def anguCase : Case := onKey .angu (ageCase other) rest

def onCase : Case := onByte 'o' (onByte 'n' (dcEnd .acceptDisposition) other) rest

def sitiCase : Case := onKey .siti (onCase other) rest

def ispoCase : Case := onKey .ispo (sitiCase other) rest

def ptldCase : Case := onKey .ptL (anguCase other) (onKey .ptD (ispoCase other) rest)

def acceCase : Case := ptldCase (onByte 'p' (onByte 't' (dcEnd .accept) other) other)

/-! ### `case_allo.h`, `case_auth.h`, `case_call.h` -/

def alloCase : Case := onByte 'w' (dcEnd .allow) other

def authAtioCase : Case := onKey .atio (onByte 'n' (dcEnd .authorization) other) rest

def authOrizCase : Case := onKey .oriz (authAtioCase other) rest

def authCase : Case := authOrizCase other

def idCase : Case := onEnds .id1 .id2 .callId 7 rest

def callCase : Case := idCase other

/-! ### `case_cont.h` -/

def thCase : Case :=
  onKey .th12 (.out (.ret .contentLength 14)) (onByte 't' (onByte 'h' (dcEnd .contentLength) other) rest)

def contIonCase : Case := onEnds .ion1 .ion2 .contentDisposition 19 rest

def dispositionCase : Case := onKey .osit (contIonCase other) rest

def contentCase : Case :=
  onKey .leng (thCase other) (onKey .type (dcEnd .contentType) (onKey .disp (dispositionCase other) rest))

def actEntCase : Case := onEnds .act1 .act2 .contact 7 (onKey .ent (contentCase other) rest)

def contCase : Case := actEntCase other

/-! ### `case_cseq.h`, `case_dive.h`, `case_even.h`, `case_expi.h`, `case_from.h`, `case_max.h`, `case_min_.h` -/

def cseqCase : Case := dcEnd .cseq

def rsioCase : Case := onKey .rsio (onByte 'n' (dcEnd .diversion) other) rest

def diveCase : Case := rsioCase other

def evenCase : Case := onByte 't' (dcEnd .event) other

def expiResCase : Case := onEnds .res1 .res2 .expires 7 rest

def expiCase : Case := expiResCase other

def fromCase : Case := dcEnd .from_

def ardsCase : Case := onKey .ards (dcEnd .maxForwards) rest

def forwCase : Case := onKey .forw (ardsCase other) rest

def maxCase : Case := forwCase other

def seCase : Case := .test (.bytes [.lower 's'.toUInt8, .lower 'e'.toUInt8]) (dcEnd .minSe) rest

def minCase : Case := seCase other

/-! ### `case_orga.h`, `case_p_as.h`, `case_p_pr.h` -/

def tionCase : Case := onKey .tion (dcEnd .organization) rest

def nizaCase : Case := onKey .niza (tionCase other) rest

def orgaCase : Case := nizaCase other

def ityCase : Case := onEnds .ity1 .ity2 .pai 19 rest

def dentCase : Case := onKey .dent (ityCase other) rest

def edICase : Case := onKey .edI (dentCase other) rest

def sertCase : Case := onKey .sert (edICase other) rest

def pAsCase : Case := sertCase other

def tityCase : Case := onKey .tity (dcEnd .ppi) rest

def idenCase : Case := onKey .iden (tityCase other) rest

def redCase : Case := onKey .red (idenCase other) rest

def eferCase : Case := onKey .efer (redCase other) rest

def pPrCase : Case := eferCase other

/-! ### `case_path.h`, `case_prio.h`, `case_priv.h`, `case_prox.h` -/

/-- The colon is tested, and `dc_end` looks at it again. -/
def pathCase : Case := .test (.bytes [.lower ':'.toUInt8]) (.out (.dcEnd .path 1)) other

def rityCase : Case := onKey .rity (dcEnd .priority) rest

def prioCase : Case := rityCase other

def acyCase : Case := onEnds .acy1 .acy2 .privacy 7 rest

def privCase : Case := acyCase other

def proxIonCase : Case := onEnds .ion1 .ion2 .proxyAuth 19 rest

def izatCase : Case := onKey .izat (proxIonCase other) rest

def thorCase : Case := onKey .thor (izatCase other) rest

def quirCase : Case := onKey .quir (onByte 'e' (dcEnd .proxyRequire) other) rest

def prox2Case : Case := onKey .yAu (thorCase other) (onKey .yRe (quirCase other) rest)

def proxCase : Case := prox2Case other

/-! ### `case_reco.h`, `case_refe.h`, `case_remo.h`, `case_retr.h`, `case_rout.h` -/

def outeCase : Case := onKey .oute (dcEnd .recordRoute) rest

def rdRCase : Case := onKey .rdR (outeCase other) rest

def recoCase : Case := rdRCase other

def rToCase : Case := onKey .rTo (dcEnd .referTo) rest

def refeCase : Case := rToCase other

def remoIdCase : Case := onEnds .id1 .id2 .rpid 15 rest

def artyCase : Case := onKey .arty (remoIdCase other) rest

def tePCase : Case := onKey .teP (artyCase other) rest

def remoCase : Case := tePCase other

def terCase : Case := onEnds .ter1 .ter2 .retryAfter 11 rest

def yAfCase : Case := onKey .yAf (terCase other) rest

def retrCase : Case := yAfCase other

def routCase : Case := onByte 'e' (dcEnd .route) other

/-! ### `case_sess.h`, `case_subj.h`, `case_supp.h`, `case_to.h`, `case_unsu.h`, `case_user.h`, `case_via.h` -/

def resCase : Case := onEnds .res1 .res2 .sessionExpires 15 rest

def sessExpiCase : Case := onKey .expi (resCase other) rest

def ionCase : Case := onKey .ion (sessExpiCase other) rest

def sessCase : Case := ionCase other

def ectCase : Case := onEnds .ect1 .ect2 .subject 7 rest

def subjCase : Case := ectCase other

def orteCase : Case := onKey .orte (onByte 'd' (dcEnd .supported) other) rest

def suppCase : Case := orteCase other

def to12Case : Case := .out (.ret .to 2)

def tedCase : Case := onEnds .ted1 .ted2 .unsupported 11 rest

def pporCase : Case := onKey .ppor (tedCase other) rest

def unsuCase : Case := pporCase other

def ntCase : Case := onByte 'n' (onByte 't' (dcEnd .userAgent) other) other

def userCase : Case := onKey .age ntCase other

def via1Case : Case := .out (.ret .via 3)

def via2Case : Case := dcEnd .via

end

/-! ## The parser -/

/-- `PARSE_COMPACT`: the letter, then a space or the colon. -/
def parseCompact (c : Char) (type : HdrType) (rest : Case) : Case :=
  .test (.bytes [.lower c.toUInt8, .byte ' '.toUInt8]) (dcEnd type)
    (.test (.bytes [.lower c.toUInt8, .byte ':'.toUInt8]) (.out (.ret type 1)) rest)

def compactTo (rest : Case) : Case :=
  .test (.bytes [.lower 't'.toUInt8, .lower 'o'.toUInt8]) (dcEnd .to)
    (.test (.bytes [.lower 't'.toUInt8, .lower ' '.toUInt8]) (dcEnd .to)
      (.test (.bytes [.lower 't'.toUInt8, .lower ':'.toUInt8]) (.out (.ret .to 1)) rest))

/-- The default branch. -/
def compactNames : Case :=
  compactTo (parseCompact 'v' .via (parseCompact 'f' .from_ (parseCompact 'i' .callId (parseCompact 'm' .contact
    (parseCompact 'l' .contentLength (parseCompact 'k' .supported (parseCompact 'c' .contentType
      (parseCompact 'o' .event (parseCompact 'x' .sessionExpires other)))))))))

/-- `FIRST_QUATERNIONS`, and the default branch. -/
def firstQuaternions : Case :=
  [(Key.via1, via1Case), (.from_, fromCase), (.to12, to12Case), (.cseq, cseqCase), (.call, callCase), (.cont, contCase),
    (.rout, routCase), (.max, maxCase), (.reco, recoCase), (.via2, via2Case), (.auth, authCase), (.supp, suppCase),
    (.expi, expiCase), (.prox, proxCase), (.allo, alloCase), (.path, pathCase), (.unsu, unsuCase), (.even, evenCase),
    (.acce, acceCase), (.orga, orgaCase), (.prio, prioCase), (.subj, subjCase), (.user, userCase), (.dive, diveCase),
    (.remo, remoCase), (.refe, refeCase), (.sess, sessCase), (.min, minCase), (.pPr, pPrCase), (.pAs, pAsCase),
    (.priv, privCase), (.retr, retrCase)].foldr (fun e rest => onKey e.1 e.2 rest) compactNames

def skipWs (m : Nat → UInt8) : Nat → Nat → Nat
  | 0, p => p
  | size + 1, p => if m p ≠ ' '.toUInt8 ∧ m p ≠ '\t'.toUInt8 then p else skipWs m size (p + 1)

def qMemchr (m : Nat → UInt8) (c : UInt8) : Nat → Nat → Option Nat
  | 0, _ => none
  | size + 1, p => if m p = c then some p else qMemchr m c size (p + 1)

/-- The fields of a `struct hdr_field` that the parser sets. -/
structure HdrField where
  type : HdrType
  nameLen : Nat
  deriving Repr, DecidableEq

/-- `end - p`, as an `unsigned int`. -/
def left (size p : Nat) : Nat := (((size : Int) - p) % 2 ^ 32).toNat

def atOther (m : Nat → UInt8) (size p : Nat) : HdrField × Option Nat :=
  match qMemchr m ':'.toUInt8 (left size p) p with
  | none => (⟨.error, 0⟩, none)
  | some p => (⟨.other, p⟩, some (p + 1))

def atDcEnd (m : Nat → UInt8) (size : Nat) (type : HdrType) (p : Nat) : HdrField × Option Nat :=
  let p := skipWs m (left size p) p
  if m p ≠ ':'.toUInt8 then atOther m size p else (⟨type, p⟩, some (p + 1))

/-- The bytes from `begin` on, of which `size` are before `end`. The length of a message is an `unsigned int`. -/
structure Text where
  byte : Nat → UInt8
  size : Nat
  size_lt : size < 2 ^ 32

/-- `parse_hname2`: the header field, and where the body begins. -/
def parseHname2 (text : Text) (hdr : HdrField) : HdrField × Option Nat :=
  if text.size < 4 then ({ hdr with type := .error }, some 0)
  else
    match run (Test.holds text.byte) Test.len firstQuaternions 0 with
    | (.ret type len, p) => (⟨type, len⟩, some p)
    | (.dcEnd type back, p) => atDcEnd text.byte text.size type (p - back)
    | (.other, p) => atOther text.byte text.size p

end OpenSer.Parser.Hname2
