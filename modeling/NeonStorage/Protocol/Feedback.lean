import NeonStorage.Lib.Wire
import Mathlib.Data.UInt

/-!
# Pageserver feedback

A message of keys and values: a byte with the number of entries, then for every entry its key up to
a zero byte, the length of its value and the value. The pageserver writes it, the safekeeper parses
and forwards it, and the walproposer has a parser of its own, which knows some keys by a second
name. Both parsers skip the values of keys that they do not know.
-/

namespace NeonStorage.Feedback

open List

/-! ## Entries -/

inductive Field where
  | currentTimelineSize | psWriteLsn | psFlushLsn | psApplyLsn | psReplytime | shardNumber
  | corruptionDetected
  deriving DecidableEq

variable (f : Field)

namespace Field

def all : List Field :=
  [currentTimelineSize, psWriteLsn, psFlushLsn, psApplyLsn, psReplytime, shardNumber,
    corruptionDetected]

/-- The key, and the other name under which the walproposer accepts it. -/
def names : Field → String × Option String
  | currentTimelineSize => ("current_timeline_size", none)
  | psWriteLsn => ("ps_writelsn", some "last_received_lsn")
  | psFlushLsn => ("ps_flushlsn", some "disk_consistent_lsn")
  | psApplyLsn => ("ps_applylsn", some "remote_consistent_lsn")
  | psReplytime => ("ps_replytime", some "replytime")
  | shardNumber => ("shard_number", none)
  | corruptionDetected => ("corruption_detected", none)

def key (f : Field) : List UInt8 := f.names.1.toUTF8.data.toList

def len : Field → ℕ
  | shardNumber => 4
  | corruptionDetected => 1
  | _ => 8

theorem zero_notMem_key : 0 ∉ f.key := by cases f <;> decide

end Field

structure Entry where
  key : List UInt8
  value : List UInt8
  deriving DecidableEq

namespace Entry

def ofField (f : Field) (x : ℕ) : Entry := ⟨f.key, beBytes f.len x⟩

def bytes (e : Entry) : List UInt8 := e.key ++ 0 :: (beBytes 4 e.value.length ++ e.value)

/-- The key ends at its zero byte, and the length is a positive `int32`. -/
def WellFormed (e : Entry) : Prop := 0 ∉ e.key ∧ e.value.length < 2 ^ 31

theorem wellFormed_ofField (x : ℕ) : (ofField f x).WellFormed :=
  ⟨f.zero_notMem_key, by rw [ofField, length_beBytes]; cases f <;> decide⟩

end Entry

def message (es : List Entry) : List UInt8 := UInt8.ofNat es.length :: es.flatMap Entry.bytes

/-! ## The pageserver's side -/

/-- The struct of the pageserver, with the time of the reply in nanoseconds since the PostgreSQL
epoch, and that of the walproposer, which has the same fields and keeps microseconds. -/
structure PageserverFeedback where
  currentTimelineSize : UInt64
  lastReceivedLsn : UInt64
  diskConsistentLsn : UInt64
  remoteConsistentLsn : UInt64
  replytime : ℤ
  shardNumber : UInt32
  corruptionDetected : Bool
  deriving DecidableEq

namespace PageserverFeedback

def empty : PageserverFeedback := ⟨0, 0, 0, 0, 0, 0, false⟩

variable (fb : PageserverFeedback)

/-- The fields that are sent, with their values. -/
def values : List (Field × ℕ) :=
  [(.currentTimelineSize, fb.currentTimelineSize.toNat), (.psWriteLsn, fb.lastReceivedLsn.toNat),
    (.psFlushLsn, fb.diskConsistentLsn.toNat), (.psApplyLsn, fb.remoteConsistentLsn.toNat),
    -- microseconds, of which `put_i64` writes the low eight bytes
    (.psReplytime, (fb.replytime / 1000).toNat)]
  ++ (if 0 < fb.shardNumber then [(.shardNumber, fb.shardNumber.toNat)] else [])
  ++ if fb.corruptionDetected then [(.corruptionDetected, 1)] else []

def entries : List Entry := fb.values.map fun (f, x) ↦ .ofField f x

/-- Fails for a time before the epoch. -/
def serialize : Option (List UInt8) :=
  if fb.replytime < 0 then none else some (message fb.entries)

/-- Store the value of a field, with what is made of the `int64` of a time. -/
def set (time : ℤ → ℤ) (rf : PageserverFeedback) (x : ℕ) : Field → PageserverFeedback
  | .currentTimelineSize => { rf with currentTimelineSize := .ofNat x }
  | .psWriteLsn => { rf with lastReceivedLsn := .ofNat x }
  | .psFlushLsn => { rf with diskConsistentLsn := .ofNat x }
  | .psApplyLsn => { rf with remoteConsistentLsn := .ofNat x }
  | .psReplytime => { rf with replytime := time (Int.bmod x (2 ^ 64)) }
  | .shardNumber => { rf with shardNumber := .ofNat x }
  | .corruptionDetected => { rf with corruptionDetected := x != 0 }

end PageserverFeedback

/-! ## Parsers -/

/-- Split at the first zero byte. -/
def readCstr : List UInt8 → Option (List UInt8 × List UInt8)
  | [] => none
  | b :: buf =>
    if b = 0 then some ([], buf) else (readCstr buf).map fun (key, rest) ↦ (b :: key, rest)

/-- What the two parsers differ in: the keys, whether a wrong length stops the parser (`assert_eq!`,
but the `Assert` of the walproposer is compiled out), and the unit of the time. -/
structure Parser where
  field : List UInt8 → Option Field
  asserts : Bool
  time : ℤ → ℤ

namespace Parser

variable (p : Parser)

def entry (rf : PageserverFeedback) (buf : List UInt8) :
    Option (PageserverFeedback × List UInt8) := do
  let (key, buf) ← readCstr buf
  let (len, buf) ← getBe 4 buf
  match p.field key with
  | some f =>
    if p.asserts ∧ len ≠ f.len then none
    else
      let (x, buf) ← getBe f.len buf
      return (rf.set p.time x f, buf)
  | none =>
    -- a negative `int32` is no length for `advance` and for `pq_getmsgbytes`
    if 2 ^ 31 ≤ len then none
    else
      let (_, buf) ← getBytes len buf
      return (rf, buf)

def entries : ℕ → PageserverFeedback → List UInt8 → Option (PageserverFeedback × List UInt8)
  | 0, rf, buf => some (rf, buf)
  | n + 1, rf, buf => do
    let (rf, buf) ← p.entry rf buf
    entries n rf buf

def parse (buf : List UInt8) : Option (PageserverFeedback × List UInt8) := do
  let (n, buf) ← getBe 1 buf
  p.entries n .empty buf

def apply (rf : PageserverFeedback) (e : Entry) : PageserverFeedback :=
  match p.field e.key with
  | some f => rf.set p.time (beNat e.value) f
  | none => rf

def knows (e : Entry) : Bool := (p.field e.key).isSome

/-- The parser of the safekeeper. -/
def rust : Parser where
  field key := Field.all.find? (·.key = key)
  asserts := true
  time raw := if 0 < raw then raw * 1000 else 0 - -raw * 1000

/-- The parser of the walproposer. -/
def walproposer : Parser where
  field key := Field.all.find? fun f ↦ f.key = key ∨ f.names.2.map (·.toUTF8.data.toList) = some key
  asserts := false
  time raw := raw

end Parser

/-- `PageserverFeedback::parse`; bytes behind the last entry are dropped. -/
def parse (buf : List UInt8) : Option PageserverFeedback := (Parser.rust.parse buf).map Prod.fst

def parsePageserverFeedbackMessage (buf : List UInt8) :
    Option (PageserverFeedback × List UInt8) :=
  Parser.walproposer.parse buf

/-! ## Reading back a message -/

theorem readCstr_append {key : List UInt8} (h : 0 ∉ key) (rest : List UInt8) :
    readCstr (key ++ 0 :: rest) = some (key, rest) := by
  induction key with
  | nil => simp [readCstr]
  | cons b key ih =>
    have hb : b ≠ 0 := fun hb ↦ h (hb ▸ mem_cons_self)
    rw [cons_append, readCstr, if_neg hb, ih fun hm ↦ h (mem_cons_of_mem b hm)]
    rfl

namespace Parser

variable {p : Parser} {es : List Entry} (rf : PageserverFeedback) (rest : List UInt8)

/-- Well-formed entries in which the values of known keys have their length. -/
def Accepts (p : Parser) (e : Entry) : Prop :=
  e.WellFormed ∧ ∀ f, p.field e.key = some f → e.value.length = f.len

theorem entry_bytes {e : Entry} (he : p.Accepts e) :
    p.entry rf (e.bytes ++ rest) = some (p.apply rf e, rest) := by
  obtain ⟨⟨hkey, hlen⟩, hknown⟩ := he
  have hlen4 : e.value.length < 256 ^ 4 := by omega
  rw [entry, Entry.bytes, append_assoc, cons_append, readCstr_append hkey]
  simp only [Option.bind_eq_bind, Option.bind_some, append_assoc, getBe_append _ hlen4]
  cases hf : p.field e.key with
  | none => simpa [apply, hf, getBytes_append] using hlen
  | some f => simp [apply, hf, getBe, getBytes_append rest (hknown f hf), hknown f hf]

theorem entries_bytes (hes : ∀ e ∈ es, p.Accepts e) :
    p.entries es.length rf (es.flatMap Entry.bytes ++ rest) = some (es.foldl p.apply rf, rest) := by
  induction es generalizing rf with
  | nil => rfl
  | cons e es ih =>
    rw [forall_mem_cons] at hes
    rw [flatMap_cons, append_assoc, length_cons, entries, entry_bytes _ _ hes.1]
    exact ih _ hes.2

theorem foldl_filter_knows (es : List Entry) :
    (es.filter p.knows).foldl p.apply rf = es.foldl p.apply rf := by
  rw [foldl_filter]
  congr 1
  funext rf e
  cases hf : p.field e.key <;> simp [apply, knows, hf]

theorem parse_message (hlen : es.length ≤ 255) (hes : ∀ e ∈ es, p.Accepts e) :
    p.parse (message es ++ rest) = some ((es.filter p.knows).foldl p.apply .empty, rest) := by
  have hn : beNat [UInt8.ofNat es.length] = es.length := by
    simp [beNat, leNat]
    omega
  have hget : ∀ buf, getBytes 1 ([UInt8.ofNat es.length] ++ buf) =
    some ([UInt8.ofNat es.length], buf) :=
    fun buf ↦ getBytes_append buf rfl
  rw [parse, message, getBe, cons_append, ← singleton_append, hget]
  simp only [Option.map_some, hn, Option.bind_eq_bind, Option.bind_some]
  rw [entries_bytes _ _ hes, foldl_filter_knows]

theorem apply_ofField {f : Field} (hf : p.field f.key = some f) {x : ℕ} (hx : x < 256 ^ f.len) :
    p.apply rf (.ofField f x) = rf.set p.time x f := by
  simp only [apply, Entry.ofField, hf, beNat_beBytes_of_lt hx]

end Parser

namespace PageserverFeedback

variable {fb : PageserverFeedback} {es : List Entry}

theorem exists_ofField {e : Entry} (he : e ∈ fb.entries) : ∃ f x, e = .ofField f x := by
  obtain ⟨⟨f, x⟩, -, rfl⟩ := mem_map.mp he
  exact ⟨f, x, rfl⟩

/-- A message that carries the feedback to a parser: what the parser knows of it are the entries of
the feedback. -/
structure Carries (fb : PageserverFeedback) (p : Parser) (es : List Entry) : Prop where
  length_le : es.length ≤ 255
  wellFormed : ∀ e ∈ es, e.WellFormed
  known : es.filter p.knows = fb.entries

section

variable {p : Parser} (hp : ∀ f : Field, p.field f.key = some f)

include hp

theorem carries_entries : fb.Carries p fb.entries where
  length_le := by
    rw [entries, values]
    split <;> split <;> simp
  wellFormed e he := by
    obtain ⟨f, x, rfl⟩ := exists_ofField he
    exact Entry.wellFormed_ofField f x
  known := by
    rw [filter_eq_self]
    intro e he
    obtain ⟨f, x, rfl⟩ := exists_ofField he
    simp [Parser.knows, Entry.ofField, hp]

theorem Carries.parse (h : fb.Carries p es) (rest : List UInt8) :
    p.parse (message es ++ rest) = some (fb.entries.foldl p.apply .empty, rest) := by
  rw [← h.known]
  refine Parser.parse_message rest h.length_le fun e he ↦ ⟨h.wellFormed e he, fun f hf ↦ ?_⟩
  have hmem : e ∈ fb.entries := by
    rw [← h.known, mem_filter]
    exact ⟨he, by simp [Parser.knows, hf]⟩
  obtain ⟨g, x, rfl⟩ := exists_ofField hmem
  cases (hp g).symm.trans hf
  exact length_beBytes _ _

theorem foldl_apply_entries (htime : fb.replytime / 1000 < 2 ^ 63) :
    fb.entries.foldl p.apply .empty =
      fb.values.foldl (fun rf v ↦ rf.set p.time v.2 v.1) .empty := by
  have h64 (x : UInt64) : x.toNat < 256 ^ 8 := x.toNat_lt
  have hshard : fb.shardNumber.toNat < 256 ^ 4 := fb.shardNumber.toNat_lt
  have hmicros : (fb.replytime / 1000).toNat < 256 ^ 8 := by omega
  have hfits : ∀ v ∈ fb.values, v.2 < 256 ^ v.1.len := by
    unfold values
    split <;> split <;> simp_all [Field.len]
  rw [entries, foldl_map]
  exact foldl_ext _ _ _ fun rf v hv ↦ Parser.apply_ofField rf (hp v.1) (hfits v hv)

/-- What a parser makes of the entries: the feedback, with the time that it makes of the
microseconds. -/
theorem Carries.parse_eq (hepoch : 0 ≤ fb.replytime) (htime : fb.replytime / 1000 < 2 ^ 63)
    (h : fb.Carries p es) (rest : List UInt8) : p.parse (message es ++ rest) =
      some ({ fb with replytime := p.time (fb.replytime / 1000) }, rest) := by
  have hraw : Int.bmod (fb.replytime / 1000).toNat (2 ^ 64) = fb.replytime / 1000 := by
    rw [Int.toNat_of_nonneg (by omega)]
    exact Int.bmod_eq_of_le (by omega) (by omega)
  rw [h.parse hp, foldl_apply_entries hp htime, values]
  split <;> split <;> simp_all [set, empty]

end

end PageserverFeedback

theorem Parser.field_rust : rust.field f.key = some f := by cases f <;> decide

theorem Parser.field_walproposer : walproposer.field f.key = some f := by
  cases f <;> decide

theorem Parser.time_rust (micros : ℤ) : rust.time micros = micros * 1000 := by
  simp only [rust]
  split_ifs <;> omega

/-! ## From the pageserver to the compute -/

namespace PageserverFeedback

/-- Feedback of a time that is in the range of the timestamp arrives, truncated to microseconds,
whatever entries the parser does not know stand between the others. -/
theorem parse_serialize (fb : PageserverFeedback) (hepoch : 0 ≤ fb.replytime)
    (htime : fb.replytime / 1000 < 2 ^ 63) :
    let truncated := { fb with replytime := fb.replytime / 1000 * 1000 }
    let micros := { fb with replytime := fb.replytime / 1000 }
    ∃ buf, fb.serialize = some buf ∧ parse buf = some truncated ∧
      parsePageserverFeedbackMessage buf = some (micros, []) ∧
      (∀ es rest, fb.Carries .rust es → parse (message es ++ rest) = some truncated) ∧
      ∀ es rest, fb.Carries .walproposer es →
        parsePageserverFeedbackMessage (message es ++ rest) = some (micros, rest) := by
  intro truncated micros
  have hrust (es rest) (h : fb.Carries .rust es) : parse (message es ++ rest) = some truncated := by
    rw [parse, h.parse_eq Parser.field_rust hepoch htime, Parser.time_rust]
    rfl
  have hc (es rest) (h : fb.Carries .walproposer es) :
      parsePageserverFeedbackMessage (message es ++ rest) = some (micros, rest) :=
    h.parse_eq Parser.field_walproposer hepoch htime rest
  refine ⟨message fb.entries, if_neg (by omega), ?_, ?_, hrust, hc⟩
  · simpa using hrust fb.entries [] (carries_entries Parser.field_rust)
  · simpa using hc fb.entries [] (carries_entries Parser.field_walproposer)

/-- Feedback with all fields in use, and an entry of a later version in front. -/
def sampleFeedback : PageserverFeedback := ⟨12345678, 2, 3, 2 ^ 40, 1234567, 7, true⟩

def sampleEntries : List Entry :=
  ⟨"new_field_one".toUTF8.data.toList, beBytes 8 42⟩ :: sampleFeedback.entries

theorem parse_serialize_sampleFeedback :
    parse (message sampleEntries) = some { sampleFeedback with replytime := 1234000 } := by
  obtain ⟨-, -, -, -, hparse, -⟩ := parse_serialize sampleFeedback (by decide) (by decide)
  have hcarries : sampleFeedback.Carries .rust sampleEntries :=
    ⟨by decide, by unfold Entry.WellFormed; decide, by decide⟩
  exact hparse sampleEntries [] hcarries

/-- From $2^{63}$ microseconds on the timestamp is negative. -/
theorem parse_serialize_overflow :
    let fb := { empty with replytime := 2 ^ 63 * 1000 }
    0 ≤ fb.replytime ∧ fb.serialize.bind parse = some { fb with replytime := -2 ^ 63 * 1000 } := by
  decide +kernel

end PageserverFeedback
end NeonStorage.Feedback
