/-
The commit marker (`node/runner/src/commit_marker.rs`).

The digest of a persisted block is written to a file in hex, first to a temporary file
that is then renamed. A write can end early after any step of it.

* `marker_file_refines` — in every run the file reads as the marker of `Kora.Recovery`,
  which is written at once or not at all.
-/
import Kora.Recovery
import Kora.Disk
import Mathlib.Data.List.DropRight

open Disk BigEndian List

namespace Kora

/-! ### Hex -/

def hexDigit (n : ℕ) : Char := if n < 10 then Char.ofNat (48 + n) else Char.ofNat (87 + n)

/-- The value of a digit, of either case. -/
def hexVal (c : Char) : Option ℕ :=
  if 'A' ≤ c ∧ c ≤ 'F' then some (c.toNat - 55)
  else if 'a' ≤ c ∧ c ≤ 'f' then some (c.toNat - 87)
  else if '0' ≤ c ∧ c ≤ '9' then some (c.toNat - 48)
  else none

def hexEncode (bytes : Bytes) : List Char :=
  bytes.flatMap fun b => [hexDigit (b.toNat / 16), hexDigit (b.toNat % 16)]

def hexDecode : List Char → Option Bytes
  | [] => some []
  | [_] => none
  | a :: b :: rest => do
    let high ← hexVal a
    let low ← hexVal b
    let bytes ← hexDecode rest
    return UInt8.ofNat (16 * high + low) :: bytes

/-- White space as Unicode has it. -/
def isWhitespace (c : Char) : Bool :=
  c.toNat ∈ range' 9 5 ++ [0x20, 0x85, 0xA0, 0x1680] ++ range' 0x2000 11 ++
    [0x2028, 0x2029, 0x202F, 0x205F, 0x3000]

def trim (text : List Char) : List Char := (text.dropWhile isWhitespace).rdropWhile isWhitespace

theorem hexDigit_spec : ∀ n < 16, hexVal (hexDigit n) = some n ∧
    isWhitespace (hexDigit n) = false ∧ (hexDigit n).utf8Size = 1 := by
  decide

theorem hexDecode_hexEncode (bytes : Bytes) : hexDecode (hexEncode bytes) = some bytes := by
  induction bytes with
  | nil => rfl
  | cons b bytes ih =>
    have hb : b.toNat < 256 := b.toNat_lt
    obtain ⟨hh, -⟩ := hexDigit_spec (b.toNat / 16) (by omega)
    obtain ⟨hl, -⟩ := hexDigit_spec (b.toNat % 16) (by omega)
    show hexDecode (_ :: _ :: hexEncode bytes) = _
    rw [hexDecode, hh, hl, ih]
    show some (UInt8.ofNat (16 * (b.toNat / 16) + b.toNat % 16) :: bytes) = _
    rw [Nat.div_add_mod, UInt8.ofNat_toNat]

theorem hexEncode_chars {bytes : Bytes} :
    ∀ c ∈ hexEncode bytes, isWhitespace c = false ∧ c.utf8Size = 1 := by
  intro c hc
  obtain ⟨b, -, hb⟩ := mem_flatMap.1 hc
  have hlt : b.toNat < 256 := b.toNat_lt
  rcases mem_pair.1 hb with rfl | rfl
  · exact (hexDigit_spec _ (by omega)).2
  · exact (hexDigit_spec _ (by omega)).2

theorem trim_concat {text : List Char} (h : ∀ c ∈ text, isWhitespace c = false) :
    trim (text ++ ['\n']) = text := by
  cases text with
  | nil => decide
  | cons c text =>
    rw [trim, cons_append, dropWhile_cons_of_neg (by simp [h c]), ← cons_append,
      rdropWhile_concat_pos _ _ _ (by decide), rdropWhile_eq_self_iff]
    intro hne
    simp [h _ (getLast_mem hne)]

/-! ### The file -/

/-- The marker, and the file that it is first written to. -/
inductive MarkerFile where
  | marker
  | temporary
deriving DecidableEq

abbrev MarkerDir := Directory MarkerFile Char

def markerText (digest : Digest) : List Char := hexEncode (toBytes 32 digest) ++ ['\n']

/-- Write a marker. With `cut` the write ends early, after that many steps and before the file is
renamed. -/
def writeCommitMarker (d : MarkerDir) (digest : Digest) (cut : Option ℕ) : MarkerDir :=
  let program := write .temporary (markerText digest)
  match cut with
  | some i => crash program i d
  | none =>
    let d := run d program
    Function.update (Function.update d .marker (d .temporary)) .temporary none

def readCommitMarker (d : MarkerDir) : Option Digest := do
  let content ← d .marker
  let hex := trim content
  if (hex.map Char.utf8Size).sum ≠ 64 then none
  else (hexDecode hex).map (ofBytes 32)

theorem readCommitMarker_complete (d : MarkerDir) (digest : Digest) :
    readCommitMarker (writeCommitMarker d digest none) = some digest := by
  have hlen : (hexEncode (toBytes 32 digest)).length = 64 := by
    simp [hexEncode, length_flatMap]
  have hsize : ((hexEncode (toBytes 32 digest)).map Char.utf8Size).sum = 64 := by
    rw [map_congr_left fun c hc => (hexEncode_chars c hc).2, map_const', hlen]
    rfl
  rw [writeCommitMarker, run_write, readCommitMarker]
  simp [markerText, trim_concat fun c hc => (hexEncode_chars c hc).1, hsize, hexDecode_hexEncode]

theorem readCommitMarker_cut (d : MarkerDir) (digest : Digest) (i : ℕ) :
    readCommitMarker (writeCommitMarker d digest (some i)) = readCommitMarker d := by
  cases i with
  | zero => rfl
  | succ k =>
    -- only the temporary file is touched
    rw [writeCommitMarker, crash_write, readCommitMarker, readCommitMarker,
      Function.update_of_ne (by decide)]

/-! ### The marker in a run -/

variable {P : Platform}

def Durable.stepFiles (chain : Chain P) (s : Durable × MarkerDir) (event : Durable.Event × ℕ) :
    Durable × MarkerDir :=
  (s.1.step chain event.1,
    match event.1, s.1.pendingMarkers with
    | .writeMarker, height :: _ => writeCommitMarker s.2 (chain.digest height) none
    | .loseMarker, height :: _ => writeCommitMarker s.2 (chain.digest height) (some event.2)
    | _, _ => s.2)

/-- **The marker file is written at once or not at all**, wherever the writes of a run are cut. -/
theorem marker_file_refines (chain : Chain P) (events : List (Durable.Event × ℕ)) :
    readCommitMarker (events.foldl (Durable.stepFiles chain) (Durable.new, fun _ => none)).2 =
      ((events.map Prod.fst).foldl (Durable.step chain) Durable.new).marker.map chain.digest := by
  have hrun : ∀ s : Durable × MarkerDir, readCommitMarker s.2 = s.1.marker.map chain.digest →
      readCommitMarker (events.foldl (Durable.stepFiles chain) s).2 =
        ((events.map Prod.fst).foldl (Durable.step chain) s.1).marker.map chain.digest := by
    induction events with
    | nil => exact fun s h => h
    | cons event events ih =>
      refine fun s h => ih _ ?_
      obtain ⟨event, i⟩ := event
      cases event with
      | sync | commit height =>
        simp only [Durable.stepFiles, Durable.step]
        split <;> exact h
      | writeMarker =>
        cases hp : s.1.pendingMarkers with
        | nil => simpa [Durable.stepFiles, Durable.step, hp] using h
        | cons height rest =>
          simp [Durable.stepFiles, Durable.step, hp, readCommitMarker_complete]
      | loseMarker =>
        cases hp : s.1.pendingMarkers with
        | nil => simpa [Durable.stepFiles, Durable.step, hp] using h
        | cons height rest => simpa [Durable.stepFiles, Durable.step, hp, readCommitMarker_cut]
  exact hrun _ rfl

end Kora
