import Cibyl.FlatMemory
import Cibyl.MemoryCode

namespace Cibyl
set_option autoImplicit true

open CRunTime

/-- The address lies outside the array. -/
def Outside (m : Memory) (a : Word) : Prop := m.size ≤ a.toNat

instance (m : Memory) (a : Word) : Decidable (Outside m a) := Nat.decLe ..

/-- Division rounds towards zero, so these addresses below zero become index 0. -/
def Truncates (a : Word) : Prop := -3 ≤ a.toInt ∧ a.toInt ≤ -1

instance (a : Word) : Decidable (Truncates a) := instDecidableAnd

theorem Outside.toInt (h : Outside m a) : a.toInt < 0 ∨ (m.size : Int) ≤ a.toInt := by
  have ha := BitVec.toInt_eq_toNat_cond a
  rw [Outside] at h
  split at ha <;> omega

theorem ishr_two_toInt (a : Word) : (ishr a 2).toInt = a.toInt / 4 := by
  have h₂ : (2 : Word).toNat % 32 = 2 := rfl
  rw [ishr, h₂, BitVec.toInt_sshiftRight, Int.shiftRight_eq_div_pow]
  rfl

namespace Memory

theorem load_error (h : ¬ m.InBounds i) : load i m = (.error .arrayIndexOutOfBounds, m) := dif_neg h

theorem store_error (h : ¬ m.InBounds i) : store i v m = (.error .arrayIndexOutOfBounds, m) :=
  if_neg h

theorem ishr_outside (h : Outside m a) : ¬ m.InBounds (ishr a 2) := by
  have hi := h.toInt
  rw [InBounds, ishr_two_toInt]
  rw [size] at hi
  omega

theorem sdiv_outside (h : Outside m a) (ht : m.size = 0 ∨ ¬ Truncates a) :
    ¬ m.InBounds (a.sdiv 4) := by
  have hi := h.toInt
  have hd := Int.mul_tdiv_add_tmod a.toInt 4
  have hm := Int.tmod_lt_of_pos a.toInt (b := 4) (by decide)
  have hm' := Int.lt_tmod_of_pos a.toInt (b := 4) (by decide)
  rw [InBounds, sdiv_four_toInt]
  rw [Truncates] at ht
  rw [size] at hi ht
  omega

theorem ext_flat {m m' : Memory} (hs : m.size = m'.size) (hf : m.flat = m'.flat) : m = m' := by
  have hlen : m.words.length = m'.words.length := by
    rw [size, size] at hs
    omega
  apply Memory.ext
  apply List.ext_getElem hlen
  intro i hi hi'
  have hd : 4 * i / 4 = i := by omega
  have hr := Lanes.readWord_byteAt (m := m.words) (a := 4 * i) (by omega) (by omega)
  have hr' := Lanes.readWord_byteAt (m := m'.words) (a := 4 * i) (by omega) (by omega)
  simp only [hd] at hr hr'
  have hb : Lanes.byteAt m.words = Lanes.byteAt m'.words := hf
  rw [← hr, ← hr', hb]

end Memory

/-- The call raises an array-index exception and leaves the memory as it was. -/
def Rejected (x : MemM α) (m : Memory) : Prop := x m = (.error .arrayIndexOutOfBounds, m)

theorem Rejected.bind {x : MemM α} (h : Rejected x m) (f : α → MemM β) : Rejected (x >>= f) m :=
  MemM.bind_of_error h f

theorem memoryReadByteUnsigned_cases (a : Word) (m : Memory) :
    (∃ v, memoryReadByteUnsigned a m = (.ok v, m)) ∨ Rejected (memoryReadByteUnsigned a) m := by
  by_cases h : m.InBounds (ishr a 2)
  · exact .inl ⟨_, MemM.bind_of_ok (dif_pos h) _⟩
  · exact .inr (Rejected.bind (Memory.load_error h) _)

/-- Reading a byte first changes nothing. -/
theorem Rejected.read {f : Word → MemM β} (a : Word) (h : ∀ v, Rejected (f v) m) :
    Rejected (memoryReadByteUnsigned a >>= f) m := by
  rcases memoryReadByteUnsigned_cases a m with ⟨v, hv⟩ | hr
  · exact (MemM.bind_of_ok hv f).trans (h v)
  · exact hr.bind f

/-- The read routines reject every address outside the array. -/
theorem read_rejected (what : Jvm.ReadWhat) (h : Outside m a) : Rejected (what.call a) m := by
  have hl : Rejected (Memory.load (ishr a 2)) m := Memory.load_error (Memory.ishr_outside h)
  cases what with
  | byte => exact hl.bind _
  | byteUnsigned => exact hl.bind _
  | short => exact (hl.bind _ : Rejected (memoryReadShortUnsigned a) m).bind _
  | shortUnsigned => exact hl.bind _
  | wordLeft =>
    refine .read _ (fun _ => .read _ (fun _ => .read _ (fun _ => ?_)))
    rw [show a + 0 = a from BitVec.add_zero a]
    exact (hl.bind _ : Rejected (memoryReadByteUnsigned a) m).bind _

theorem write_rejected {what : Jvm.WriteWhat} (hw : what ≠ .wordLeft) (h : Outside m a)
    (ht : m.size = 0 ∨ ¬ Truncates a) (v : Word) : Rejected (what.call a v) m := by
  have hb := Memory.sdiv_outside h ht
  have hl : Rejected (Memory.load (a.sdiv 4)) m := Memory.load_error hb
  cases what with
  | byte => exact hl.bind _
  | short => exact hl.bind _
  | word => exact Memory.store_error hb
  | wordLeft => exact absurd rfl hw

theorem sdiv_four_eq_zero {a : Word} (h : -3 ≤ a.toInt) (h' : a.toInt ≤ 3) : a.sdiv 4 = 0 := by
  apply BitVec.eq_of_toInt_eq
  rw [sdiv_four_toInt]
  apply Int.natAbs_eq_zero.mp
  rw [Int.natAbs_tdiv]
  exact Nat.div_eq_of_lt (by omega)

theorem load_zero {m : Memory} (h : 0 < m.size) :
    Memory.load 0 m = (.ok (m.words.get ⟨0, Memory.word_lt h⟩), m) :=
  Memory.load_of_inBounds (i := 0) (Memory.word_lt h)

theorem store_zero {m : Memory} (h : 0 < m.size) (v : Word) :
    Memory.store 0 v m = (.ok (), m.setWord 0 v) :=
  Memory.store_of_inBounds (i := 0) (Memory.word_lt h)

/-- A byte written at an address that becomes index 0 goes to a lane of word 0. -/
theorem memoryWriteByte_zero {a : Word} (h : 0 < m.size) (hz : a.sdiv 4 = 0) (v : Word) :
    ∃ m', memoryWriteByte a v m = (.ok (), m') ∧ m'.size = m.size ∧
      m'.flat = Lanes.write 1 m.flat (a.toNat % 4) v := by
  have hd : a.toNat % 4 / 4 = 0 := by omega
  have hm : a.toNat % 4 % 4 = a.toNat % 4 := Nat.mod_mod ..
  have hs := Memory.flat_setWord_insert (n := 1) (m := m) (a := a.toNat % 4) (by omega)
    (by rw [Memory.size] at h ⊢; omega) v
  simp only [hd, hm] at hs
  refine ⟨_, ?_, Memory.size_setWord .., hs⟩
  rw [memoryWriteByte, hz, MemM.bind_of_ok (load_zero h), store_zero h]
  simp only [ishl_byteShift]
  rfl

theorem write_truncated {what : Jvm.WriteWhat} (hw : what ≠ .wordLeft) (h : 0 < m.size)
    (ht : Truncates a) (v : Word) : ∃ m', what.call a v m = (.ok (), m') := by
  have hz := sdiv_four_eq_zero ht.1 (Int.le_trans ht.2 (by decide))
  cases what with
  | byte =>
    obtain ⟨m', hm, -⟩ := memoryWriteByte_zero h hz v
    exact ⟨m', hm⟩
  | short =>
    change ∃ m', memoryWriteShort a v m = (.ok (), m')
    rw [memoryWriteShort, hz, MemM.bind_of_ok (load_zero h), store_zero h]
    exact ⟨_, rfl⟩
  | word =>
    change ∃ m', memoryWriteWord a v m = (.ok (), m')
    rw [memoryWriteWord, hz, store_zero h]
    exact ⟨_, rfl⟩
  | wordLeft => exact absurd rfl hw

/-- One more byte in front of those already stored. -/
theorem write_succ {n : Nat} {s : Word} (hs : s.toNat = 8 * n) (hn : n ≤ 3) (f : Lanes.Flat)
    (a : Nat) (v : Word) :
    Lanes.write 1 (Lanes.write n f (a + 1) v) a (ishr v s) = Lanes.write (n + 1) f a v := by
  have hb : (ishr v s).extractLsb' 0 8 = v.extractLsb' (8 * n) 8 := by
    apply BitVec.eq_of_getLsbD_eq
    intro i hi
    have hm : s.toNat % 32 = 8 * n := by omega
    have hlt : 8 * n + i < 32 := by omega
    have hge : ¬ 32 ≤ i := by omega
    rw [ishr, hm, BitVec.getLsbD_extractLsb', BitVec.getLsbD_extractLsb', Nat.zero_add,
      BitVec.getLsbD_sshiftRight, decide_eq_false hge, if_pos hlt]
    rfl
  funext i
  by_cases h : i = a
  · subst h
    rw [Lanes.write_of_mem ⟨Nat.le_refl _, Nat.lt_succ_self _⟩, Lanes.write_of_mem (by omega)]
    have hz : 8 * (1 - 1 - (i - i)) = 0 := by omega
    have hn : 8 * (n + 1 - 1 - (i - i)) = 8 * n := by omega
    rw [hz, hn, hb]
  · rw [Lanes.write_of_not_mem (by omega)]
    by_cases h' : a + 1 ≤ i ∧ i < a + 1 + n
    · have hi : n - 1 - (i - (a + 1)) = n + 1 - 1 - (i - a) := by omega
      rw [Lanes.write_of_mem h', Lanes.write_of_mem (by omega), hi]
    · rw [Lanes.write_of_not_mem h', Lanes.write_of_not_mem (by omega)]

theorem eq_of_toInt {a : Word} (b : Word) (h : a.toInt = b.toInt) : a = b := BitVec.eq_of_toInt_eq h

theorem truncates_cases (h : Truncates a) : a = -3 ∨ a = -2 ∨ a = -1 := by
  have hc : a.toInt = -3 ∨ a.toInt = -2 ∨ a.toInt = -1 := by
    rw [Truncates] at h
    omega
  exact hc.imp (eq_of_toInt (-3)) (Or.imp (eq_of_toInt (-2)) (eq_of_toInt (-1)))

theorem memoryWriteWordLeft_zero {m : Memory} (h : 0 < m.size) (h₃ : (a + 3).sdiv 4 = 0)
    (h₂ : (a + 2).sdiv 4 = 0) (h₁ : (a + 1).sdiv 4 = 0) (h₀ : (a + 0).sdiv 4 = 0) (v : Word) :
    ∃ m', memoryWriteWordLeft a v m = (.ok (), m') := by
  obtain ⟨m₁, e₁, s₁, -⟩ := memoryWriteByte_zero h h₃ v
  obtain ⟨m₂, e₂, s₂, -⟩ := memoryWriteByte_zero (s₁ ▸ h) h₂ (ishr v 8)
  obtain ⟨m₃, e₃, s₃, -⟩ := memoryWriteByte_zero (s₂ ▸ s₁ ▸ h) h₁ (ishr v 16)
  obtain ⟨m₄, e₄, -, -⟩ := memoryWriteByte_zero (s₃ ▸ s₂ ▸ s₁ ▸ h) h₀ (ishr v 24)
  refine ⟨m₄, ?_⟩
  rw [memoryWriteWordLeft, MemM.bind_of_ok e₁, MemM.bind_of_ok e₂, MemM.bind_of_ok e₃, e₄]

theorem memoryWriteByte_rejected (h : Outside m a) (ht : ¬ Truncates a) (v : Word) :
    memoryWriteByte a v m = (.error .arrayIndexOutOfBounds, m) :=
  write_rejected (show Jvm.WriteWhat.byte ≠ .wordLeft by decide) h (.inr ht) v

/-- Just below the truncated addresses, some bytes are written before the exception. -/
theorem memoryWriteWordLeft_partial {m : Memory} {k : Nat} (h : 0 < m.size)
    (hk : 0 < k) (hk' : k < 4)
    (ha : a.toInt = (k : Int) - 7) (v : Word) :
    ∃ m', memoryWriteWordLeft a v m = (.error .arrayIndexOutOfBounds, m') ∧ m'.size = m.size ∧
      m'.flat = Lanes.write k m.flat 1 v := by
  have hout (m : Memory) : Outside m (-4) :=
    Nat.le_trans (Nat.le_of_lt m.size_lt) (by decide)
  match k with
  | 1 =>
    obtain rfl := eq_of_toInt (-6) ha
    obtain ⟨m₁, e₁, s₁, f₁⟩ := memoryWriteByte_zero h (a := -6 + 3) (by decide) v
    have e₂ : memoryWriteByte (-6 + 2) (ishr v 8) m₁ = _ :=
      memoryWriteByte_rejected (hout m₁) (by decide) _
    refine ⟨m₁, ?_, s₁, f₁⟩
    rw [memoryWriteWordLeft, MemM.bind_of_ok e₁, MemM.bind_of_error e₂]
  | 2 =>
    obtain rfl := eq_of_toInt (-5) ha
    obtain ⟨m₁, e₁, s₁, f₁⟩ := memoryWriteByte_zero h (a := -5 + 3) (by decide) v
    obtain ⟨m₂, e₂, s₂, f₂⟩ := memoryWriteByte_zero (s₁ ▸ h) (a := -5 + 2) (by decide) (ishr v 8)
    have e₃ : memoryWriteByte (-5 + 1) (ishr v 16) m₂ = _ :=
      memoryWriteByte_rejected (hout m₂) (by decide) _
    refine ⟨m₂, ?_, s₂.trans s₁, ?_⟩
    · rw [memoryWriteWordLeft, MemM.bind_of_ok e₁, MemM.bind_of_ok e₂, MemM.bind_of_error e₃]
    · rw [f₂, f₁]
      exact write_succ (n := 1) rfl (by decide) m.flat 1 v
  | 3 =>
    obtain rfl := eq_of_toInt (-4) ha
    obtain ⟨m₁, e₁, s₁, f₁⟩ := memoryWriteByte_zero h (a := -4 + 3) (by decide) v
    obtain ⟨m₂, e₂, s₂, f₂⟩ := memoryWriteByte_zero (s₁ ▸ h) (a := -4 + 2) (by decide) (ishr v 8)
    obtain ⟨m₃, e₃, s₃, f₃⟩ := memoryWriteByte_zero (s₂ ▸ s₁ ▸ h) (a := -4 + 1) (by decide)
      (ishr v 16)
    have e₄ := memoryWriteByte_rejected (hout m₃) (by decide) (ishr v 24)
    refine ⟨m₃, ?_, s₃.trans (s₂.trans s₁), ?_⟩
    · rw [memoryWriteWordLeft, MemM.bind_of_ok e₁, MemM.bind_of_ok e₂, MemM.bind_of_ok e₃]
      exact e₄
    · rw [f₃, f₂, f₁]
      have hw := write_succ (n := 1) (s := 8) rfl (by decide) m.flat 2 v
      exact (congrArg (fun f => Lanes.write 1 f 1 (ishr v 16)) hw).trans
        (write_succ (n := 2) rfl (by decide) m.flat 1 v)

/-- Away from them, the first byte is already rejected. -/
theorem memoryWriteWordLeft_rejected (h : Outside m a)
    (ht : m.size = 0 ∨ ¬ (-6 ≤ a.toInt ∧ a.toInt ≤ -1)) (v : Word) :
    Rejected (memoryWriteWordLeft a v) m := by
  have h₃ : (3 : Word).toNat = 3 := rfl
  have hi := BitVec.toInt_eq_toNat_cond a
  have hi₃ := BitVec.toInt_eq_toNat_cond (a + 3)
  rw [BitVec.toNat_add, h₃] at hi₃
  have ho : Outside m (a + 3) := by
    rw [Outside] at h ⊢
    rw [BitVec.toNat_add, h₃]
    split at hi <;> omega
  have hb : m.size = 0 ∨ ¬ Truncates (a + 3) := by
    rw [Truncates]
    split at hi <;> split at hi₃ <;> omega
  have hr := write_rejected (show Jvm.WriteWhat.byte ≠ .wordLeft by decide) ho hb v
  exact Rejected.bind hr _

namespace Jvm.WriteWhat

/-- The routine raises its exception before it has changed the memory. -/
def Rejects (what : WriteWhat) (m : Memory) (a v : Word) : Prop :=
  0 < m.size → ¬ Truncates a ∧ (what = .wordLeft → ∀ k : Nat, 0 < k → k < 4 →
    a.toInt = (k : Int) - 7 → Lanes.write k m.flat 1 v = m.flat)

theorem rejects_iff (what : WriteWhat) (h : Cibyl.Outside m a) (v : Word) :
    Rejected (what.call a v) m ↔ what.Rejects m a v := by
  by_cases hw : what = .wordLeft
  · subst hw
    by_cases hz : 0 < m.size
    · by_cases ht : Truncates a
      · have hok : ∃ m', memoryWriteWordLeft a v m = (.ok (), m') := by
          rcases truncates_cases ht with rfl | rfl | rfl <;>
            exact memoryWriteWordLeft_zero hz (by decide) (by decide) (by decide) (by decide) v
        obtain ⟨m', hm⟩ := hok
        refine ⟨fun hr => ?_, fun hr => absurd ht (hr hz).1⟩
        cases hm.symm.trans hr
      · by_cases hp : ∃ k : Nat, 0 < k ∧ k < 4 ∧ a.toInt = (k : Int) - 7
        · obtain ⟨k, hk, hk', ha⟩ := hp
          obtain ⟨m', he, hs, hf⟩ := memoryWriteWordLeft_partial hz hk hk' ha v
          constructor
          · rintro hr -
            refine ⟨ht, fun _ k' _ _ ha' => ?_⟩
            obtain rfl : k = k' := by omega
            cases he.symm.trans hr
            exact hf.symm
          · intro hr
            rw [(hr hz).2 rfl k hk hk' ha] at hf
            cases Memory.ext_flat hs hf
            exact he
        · refine ⟨fun _ _ => ⟨ht, fun _ k hk hk' ha => absurd ⟨k, hk, hk', ha⟩ hp⟩, fun _ => ?_⟩
          refine memoryWriteWordLeft_rejected h (.inr ?_) v
          rintro ⟨hl, hu⟩
          rw [Truncates] at ht
          exact hp ⟨(a.toInt + 7).toNat, by omega, by omega, by omega⟩
    · exact ⟨fun _ hp => absurd hp hz,
        fun _ => memoryWriteWordLeft_rejected h (.inl (Nat.eq_zero_of_not_pos hz)) v⟩
  · constructor
    · rintro hr hz
      refine ⟨fun ht => ?_, fun h => absurd h hw⟩
      obtain ⟨m', hm⟩ := write_truncated hw hz ht v
      cases hm.symm.trans hr
    · intro hr
      refine write_rejected hw h ?_ v
      by_cases hz : 0 < m.size
      · exact .inr (hr hz).1
      · exact .inl (Nat.eq_zero_of_not_pos hz)

/-- A routine either takes a truncated address for word 0 or raises the exception. -/
theorem call_cases (what : WriteWhat) (h : Cibyl.Outside m a) (v : Word) :
    (0 < m.size ∧ Truncates a) ∨ ∃ m', what.call a v m = (.error .arrayIndexOutOfBounds, m') := by
  by_cases hz : 0 < m.size
  · by_cases ht : Truncates a
    · exact .inl ⟨hz, ht⟩
    · by_cases hp : what = .wordLeft ∧ ∃ k : Nat, 0 < k ∧ k < 4 ∧ a.toInt = (k : Int) - 7
      · obtain ⟨rfl, k, hk, hk', ha⟩ := hp
        obtain ⟨m', he, -⟩ := memoryWriteWordLeft_partial hz hk hk' ha v
        exact .inr ⟨m', he⟩
      · refine .inr ⟨m, (what.rejects_iff h v).mpr ?_⟩
        exact fun _ => ⟨ht, fun hw k hk hk' ha => absurd ⟨hw, k, hk, hk', ha⟩ hp⟩
  · exact .inr ⟨m, (what.rejects_iff h v).mpr (fun hp => absurd hp hz)⟩

theorem call_truncated (what : WriteWhat) (h : 0 < m.size) (ht : Truncates a) (v : Word) :
    ∃ m', what.call a v m = (.ok (), m') := by
  by_cases hw : what = .wordLeft
  · subst hw
    rcases truncates_cases ht with rfl | rfl | rfl <;>
      exact memoryWriteWordLeft_zero h (by decide) (by decide) (by decide) (by decide) v
  · exact write_truncated hw h ht v

end Jvm.WriteWhat

theorem memoryReadWord_rejected {m : Memory} {a : Word} (h : ¬ a.toNat < m.size) :
    Rejected (memoryReadWord a) m :=
  Memory.load_error (Memory.ishr_outside (Nat.le_of_not_lt h))

theorem assertMemoryWrite_rejected {m : Memory} (h : ¬ HeaderReadable m a) :
    Rejected (assertMemoryWrite a) m := by
  by_cases h₁₆ : 16 < m.size
  · have hs : (m.words.getD 4 0).sle a = true ∧ ¬ 20 < m.size := by
      by_contra hn
      exact h ⟨h₁₆, fun hs => by_contra fun h₂₀ => hn ⟨hs, h₂₀⟩⟩
    rw [Rejected, assertMemoryWrite, MemM.bind_of_ok (memoryReadWord_header h₁₆), if_pos hs.1]
    exact (memoryReadWord_rejected (a := 20) hs.2).bind _
  · exact (memoryReadWord_rejected (a := 16) h₁₆).bind _

def KeepsSize (x : MemM α) : Prop := ∀ m, (x m).2.size = m.size

theorem KeepsSize.bind {x : MemM α} {f : α → MemM β} (hx : KeepsSize x)
    (hf : ∀ a, KeepsSize (f a)) : KeepsSize (x >>= f) := by
  intro m
  have hm := hx m
  cases he : x m with
  | mk r m' =>
    rw [he] at hm
    cases r with
    | ok a => rw [MemM.bind_of_ok he, hf a, hm]
    | error e => rw [MemM.bind_of_error he, hm]

theorem keepsSize_load (i : Word) : KeepsSize (Memory.load i) := by
  intro m
  rw [Memory.load]
  split <;> rfl

theorem keepsSize_store (i v : Word) : KeepsSize (Memory.store i v) := by
  intro m
  rw [Memory.store]
  split
  · exact Memory.size_setWord m i.toNat v
  · rfl

theorem keepsSize_writeByte (a v : Word) : KeepsSize (memoryWriteByte a v) :=
  (keepsSize_load _).bind (fun _ => keepsSize_store _ _)

namespace Jvm.WriteWhat

theorem keepsSize (what : WriteWhat) (a v : Word) : KeepsSize (what.call a v) := by
  cases what with
  | byte => exact keepsSize_writeByte a v
  | short => exact (keepsSize_load _).bind (fun _ => keepsSize_store _ _)
  | word => exact keepsSize_store _ _
  | wordLeft =>
    exact (keepsSize_writeByte _ _).bind (fun _ => (keepsSize_writeByte _ _).bind
      (fun _ => (keepsSize_writeByte _ _).bind (fun _ => keepsSize_writeByte _ _)))

theorem callPc_rejected (what : WriteWhat) (h : ¬ HeaderReadable m a) (pc v : Word) :
    Rejected (what.callPc pc a v) m := by
  cases what <;> exact (assertMemoryWrite_rejected h).bind _

/-- A traced store: the tracing routine stores first. -/
theorem traced_rejects_iff (what : WriteWhat) (h : Cibyl.Outside m a) (pc v : Word) :
    Rejected (what.callPc pc a v >>= fun _ => what.call a v) m ↔
      (HeaderReadable m a → what.Rejects m a v) := by
  by_cases hr : HeaderReadable m a
  · have hc := what.callPc_readable hr pc v
    rw [forall_prop_of_true hr, ← what.rejects_iff h v]
    rcases what.call_cases h v with ⟨hz, ht⟩ | ⟨m', he⟩
    · obtain ⟨m', he⟩ := what.call_truncated hz ht v
      have hs := what.keepsSize a v m
      rw [he] at hs
      obtain ⟨m'', he'⟩ := what.call_truncated (hs ▸ hz) ht v
      rw [Rejected, Rejected, MemM.bind_of_ok (hc.trans he), he', he]
      constructor <;> exact nofun
    · rw [Rejected, Rejected, MemM.bind_of_error (hc.trans he), he]
  · exact ⟨fun _ h => absurd h hr, fun _ => (what.callPc_rejected hr pc v).bind _⟩

end Jvm.WriteWhat

/-- An index that `bc_pushindex` computes for an address outside the array is out of bounds. -/
theorem wordIndex_outside {m : Memory} (h : Outside m (base + extra)) :
    ¬ m.InBounds (wordIndex base extra) := by
  rw [Memory.inBounds_iff]
  intro hi
  have hs := m.size_lt
  rw [Outside, Memory.size] at h
  rw [wordIndex] at hi
  split at hi
  · rw [iushr_two_toNat] at hi
    omega
  · next hz =>
    have hm : extra.toInt.tmod 4 = 0 := by
      rw [← srem_four_toInt]
      by_cases he : extra = 0
      · rw [he]
        rfl
      · have hs : extra.srem 4 = 0 := by
          by_contra hs
          exact hz ⟨he, hs⟩
        rw [hs]
        rfl
    have hx := Int.mul_tdiv_add_tmod extra.toInt 4
    have hq := BitVec.toInt_eq_toNat_cond (extra.sdiv 4)
    have he := BitVec.toInt_eq_toNat_cond extra
    rw [sdiv_four_toInt] at hq
    rw [BitVec.toNat_add, iushr_two_toNat] at hi
    rw [BitVec.toNat_add] at h
    have hb := base.isLt
    split at hq <;> split at he <;> omega

/-- A traced `sw` stores through the tracing routine before its own store is rejected. -/
theorem traced_sw_rejects_iff {m : Memory} (h : Outside m a)
    (hi : ∀ m' : Memory, m'.size = m.size → ¬ m'.InBounds i) (pc v : Word) :
    Rejected (Jvm.WriteWhat.callPc .word pc a v >>= fun _ => Memory.store i v) m ↔
      (HeaderReadable m a → Truncates a → Lanes.write 4 m.flat 0 v = m.flat) := by
  by_cases hr : HeaderReadable m a
  · have hc := Jvm.WriteWhat.callPc_readable .word hr pc v
    have hz : 0 < m.size := Nat.lt_trans (by decide) hr.1
    rw [forall_prop_of_true hr]
    by_cases ht : Truncates a
    · have hw : memoryWriteWord a v m = (.ok (), m.setWord 0 v) := by
        rw [memoryWriteWord, sdiv_four_eq_zero ht.1 (Int.le_trans ht.2 (by decide)), store_zero hz]
      have hsz := Memory.size_setWord m 0 v
      have hf : (m.setWord 0 v).flat = Lanes.write 4 m.flat 0 v :=
        Memory.flat_setWord (a := 0) rfl hz v
      rw [forall_prop_of_true ht, Rejected, MemM.bind_of_ok (hc.trans hw),
        Memory.store_error (hi _ hsz), ← hf]
      constructor
      · intro he
        exact congrArg (fun p => p.2.flat) he
      · intro he
        rw [Memory.ext_flat hsz he]
    · have hw : Rejected (Jvm.WriteWhat.call .word a v) m := write_rejected
        (by decide) h (.inr ht) v
      exact ⟨fun _ h => absurd h ht, fun _ => Rejected.bind (hc.trans hw) _⟩
  · exact ⟨fun _ h => absurd h hr,
      fun _ => (Jvm.WriteWhat.callPc_rejected .word hr pc v).bind _⟩

end Cibyl
