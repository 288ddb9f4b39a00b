import Mtld3d.Lib.Bytes

namespace Mtld3d.Lib

open List

abbrev Reader := StateT (List UInt8) Option

namespace Reader

variable {α : Type}

def take (n : ℕ) : Reader (List UInt8) := fun bytes ↦
  if n ≤ bytes.length then some (bytes.take n, bytes.drop n) else none

def word (w : ℕ) : Reader ℕ := do
  let bytes ← take w
  pure (ofLe bytes)

def u8 : Reader UInt8 := UInt8.ofNat <$> word 1

def u16 : Reader UInt16 := UInt16.ofNat <$> word 2

def u32 : Reader UInt32 := UInt32.ofNat <$> word 4

def u64 : Reader UInt64 := UInt64.ofNat <$> word 8

def lift (value : Option α) : Reader α := fun bytes ↦ value.map fun a ↦ (a, bytes)

def check (holds : Bool) : Reader Unit := lift (if holds then some () else none)

def rest : Reader (List UInt8) := fun bytes ↦ some (bytes, [])

def eof : Reader Unit := fun bytes ↦ if bytes.isEmpty then some ((), []) else none

def times (reader : Reader α) : ℕ → Reader (List α)
  | 0 => pure []
  | n + 1 => do
    let a ← reader
    let as ← reader.times n
    pure (a :: as)

def value (reader : Reader α) (bytes : List UInt8) : Option α := (reader.run bytes).map Prod.fst

end Reader

def le16 (n : UInt16) : List UInt8 := toLe 2 n.toNat

def le32 (n : UInt32) : List UInt8 := toLe 4 n.toNat

def le64 (n : UInt64) : List UInt8 := toLe 8 n.toNat

@[simp] theorem length_le32 (n : UInt32) : (le32 n).length = 4 := length_toLe 4 _

@[simp] theorem length_le64 (n : UInt64) : (le64 n).length = 8 := length_toLe 8 _

variable {α β : Type} {reader : Reader α} {f : α → Reader β} {bs cs rest : List UInt8} {a : α} {b : β}

/-- In front of `rest` the reader takes exactly `bs` and returns `a`. -/
def Reads (reader : Reader α) (bs : List UInt8) (a : α) (rest : List UInt8) : Prop :=
  reader.run (bs ++ rest) = some (a, rest)

namespace Reads

theorem pure : Reads (Pure.pure a) [] a rest := rfl

theorem bind (h : Reads reader bs a (cs ++ rest)) (hf : Reads (f a) cs b rest) :
    Reads (reader >>= f) (bs ++ cs) b rest := by
  unfold Reads at *
  rw [StateT.run_bind, append_assoc, h]
  exact hf

theorem lift_bind {value : Option α} (h : value = some a) (hf : Reads (f a) cs b rest) :
    Reads (Reader.lift value >>= f) cs b rest := by
  subst h
  exact hf

theorem check_bind {holds : Bool} {f : Unit → Reader β} (h : holds = true)
    (hf : Reads (f ()) cs b rest) : Reads (Reader.check holds >>= f) cs b rest := by
  subst h
  exact hf

theorem map {g : α → β} (h : Reads reader bs a rest) : Reads (g <$> reader) bs (g a) rest := by
  unfold Reads at *
  rw [StateT.run_map, h]
  rfl

theorem take {n : ℕ} (h : bs.length = n) : Reads (Reader.take n) bs bs rest := by
  subst h
  change Reader.take bs.length (bs ++ rest) = _
  rw [Reader.take, if_pos (by simp), take_left, drop_left]

theorem word {w n : ℕ} (h : n < 256 ^ w) : Reads (Reader.word w) (toLe w n) n rest := by
  have hread : Reads (Reader.word w) (toLe w n ++ []) (ofLe (toLe w n)) rest :=
    bind (take (length_toLe w n)) pure
  rwa [append_nil, ofLe_toLe h] at hread

theorem u8 (n : UInt8) : Reads Reader.u8 [n] n rest := by
  have hn : n.toNat < 256 ^ 1 := n.toNat_lt
  have hbytes : toLe 1 n.toNat = [n] := by simp [toLe]
  have hread : Reads Reader.u8 (toLe 1 n.toNat) (UInt8.ofNat n.toNat) rest := map (word hn)
  rwa [hbytes, UInt8.ofNat_toNat] at hread

theorem u16 (n : UInt16) : Reads Reader.u16 (le16 n) n rest := by
  have hn : n.toNat < 256 ^ 2 := n.toNat_lt
  have hread : Reads Reader.u16 (toLe 2 n.toNat) (UInt16.ofNat n.toNat) rest := map (word hn)
  rwa [UInt16.ofNat_toNat] at hread

theorem u32 (n : UInt32) : Reads Reader.u32 (le32 n) n rest := by
  have hn : n.toNat < 256 ^ 4 := n.toNat_lt
  have hread : Reads Reader.u32 (toLe 4 n.toNat) (UInt32.ofNat n.toNat) rest := map (word hn)
  rwa [UInt32.ofNat_toNat] at hread

theorem u64 (n : UInt64) : Reads Reader.u64 (le64 n) n rest := by
  have hn : n.toNat < 256 ^ 8 := n.toNat_lt
  have hread : Reads Reader.u64 (toLe 8 n.toNat) (UInt64.ofNat n.toNat) rest := map (word hn)
  rwa [UInt64.ofNat_toNat] at hread

theorem all : Reads Reader.rest bs bs [] := by
  change some (bs ++ [], []) = _
  rw [append_nil]

theorem eof_bind {f : Unit → Reader β} (hf : Reads (f ()) [] b []) : Reads (Reader.eof >>= f) [] b [] := hf

theorem times {encode : α → List UInt8} {items : List α}
    (h : ∀ a ∈ items, ∀ rest, Reads reader (encode a) a rest) :
    Reads (reader.times items.length) (items.flatMap encode) items rest := by
  induction items with
  | nil => exact pure
  | cons a items ih =>
    have htail : Reads (reader.times items.length) (items.flatMap encode) items rest :=
      ih fun b hb ↦ h b (mem_cons_of_mem a hb)
    have hcons := bind (f := fun as ↦ (Pure.pure (a :: as) : Reader (List α))) htail pure
    rw [append_nil] at hcons
    exact bind (h a mem_cons_self _) hcons

theorem value (h : Reads reader bs a []) : reader.value bs = some a := by
  unfold Reads at h
  rw [append_nil] at h
  rw [Reader.value, h]
  rfl

end Reads

end Mtld3d.Lib
