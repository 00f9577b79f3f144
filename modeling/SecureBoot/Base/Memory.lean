import SecureBoot.Base.Word

/-! Byte-addressed memory and the loads of the source from it. Addresses are words
and wrap around as pointers do. -/

namespace SecureBoot

/-! ### Memory map -/

abbrev kRomBaseAddr : Word := 0x8000

abbrev kRomSizeBytes : Word := 0x8000

abbrev kEflashBaseAddr : Word := 0x20000000

abbrev kEflashSizeBytes : Word := 0x100000

abbrev kMmioBaseAddr : Word := 0x40000000

abbrev kMmioSizeBytes : Word := 0x10000000

abbrev kRvDmMemBaseAddr : Word := 0x10000

abbrev kRvDmMemSizeBytes : Word := 0x1000

abbrev kRamMainBaseAddr : Word := 0x10000000

abbrev kRamMainSizeBytes : Word := 0x20000

/-! ### Loads -/

variable (mem : Word → Byte)

/-- The load of a little-endian word. -/
def loadWord (addr : Word) : Word :=
  Word.ofBytes (mem addr) (mem (addr + 1)) (mem (addr + 2)) (mem (addr + 3))

def loadWords (addr : Word) (n : ℕ) : Vector Word n :=
  .ofFn fun i => loadWord mem (addr + BitVec.ofNat 32 (4 * i))

def loadBytes (addr : Word) (n : ℕ) : List Byte :=
  (List.range n).map fun i => mem (addr + BitVec.ofNat 32 i)

@[simp] theorem length_loadBytes (addr : Word) (n : ℕ) : (loadBytes mem addr n).length = n := by
  simp [loadBytes]

theorem loadBytes_add (addr : Word) (m n : ℕ) :
    loadBytes mem addr (m + n) =
      loadBytes mem addr m ++ loadBytes mem (addr + BitVec.ofNat 32 m) n := by
  simp only [loadBytes, List.range_add, List.map_append, List.map_map, Function.comp_def,
    BitVec.add_assoc, BitVec.ofNat_add]

theorem toBytes_loadWord (addr : Word) : (loadWord mem addr).toBytes = loadBytes mem addr 4 := by
  rw [loadWord, Word.toBytes_ofBytes]
  simp [loadBytes, List.range_succ]

theorem wordsToBytes_loadWords (addr : Word) (n : ℕ) :
    wordsToBytes (loadWords mem addr n).toList = loadBytes mem addr (4 * n) := by
  induction n with
  | zero => rfl
  | succ n ih =>
    have hsplit : (loadWords mem addr (n + 1)).toList =
        (loadWords mem addr n).toList ++ [loadWord mem (addr + BitVec.ofNat 32 (4 * n))] := by
      simp only [loadWords, Vector.toList_ofFn]
      rw [List.ofFn_succ_last]
      rfl
    rw [hsplit, wordsToBytes_append, ih, Nat.mul_succ, loadBytes_add]
    simp [wordsToBytes, toBytes_loadWord]

/-! ### Copies -/

/-- The `n` bytes at `addr` of one memory are those at `addr'` of another. -/
def SameBytes (mem mem' : Word → Byte) (addr addr' : Word) (n : ℕ) : Prop :=
  ∀ i < n, mem (addr + BitVec.ofNat 32 i) = mem' (addr' + BitVec.ofNat 32 i)

section

variable {mem} {mem' : Word → Byte} {addr addr' : Word} {n : ℕ}

theorem SameBytes.drop (h : SameBytes mem mem' addr addr' n) (k : ℕ) :
    SameBytes mem mem' (addr + BitVec.ofNat 32 k) (addr' + BitVec.ofNat 32 k) (n - k) := by
  intro i hi
  rw [BitVec.add_assoc, BitVec.add_assoc, ← BitVec.ofNat_add]
  exact h (k + i) (by omega)

theorem SameBytes.loadBytes (h : SameBytes mem mem' addr addr' n) {k : ℕ} (hk : k ≤ n) :
    loadBytes mem addr k = loadBytes mem' addr' k :=
  List.map_congr_left fun i hi => h i (by grind)

theorem SameBytes.loadWord (h : SameBytes mem mem' addr addr' n) (hn : 4 ≤ n) :
    loadWord mem addr = loadWord mem' addr' := by
  apply Word.toBytes_injective
  rw [toBytes_loadWord, toBytes_loadWord]
  exact h.loadBytes hn

theorem SameBytes.loadWords (h : SameBytes mem mem' addr addr' n) {k : ℕ} (hk : 4 * k ≤ n) :
    loadWords mem addr k = loadWords mem' addr' k := by
  unfold SecureBoot.loadWords
  congr
  funext i
  exact (h.drop (4 * i)).loadWord (by omega)

end

end SecureBoot
