import Cibyl.Pass2

namespace Cibyl
set_option autoImplicit true

open RegisterAllocator (setAllocation)

namespace BasicBlock

theorem mem_pruneStackStores {es : List Entry} {e : Entry}
    (h : e ∈ pruneStackStores env ty before es) :
    e ∈ es ∨ ∃ a, e = .single (InstructionFactory.createNop a) := by
  induction es generalizing before with
  | nil => cases h
  | cons e₀ es ih =>
    rw [pruneStackStores] at h
    rcases List.mem_cons.mp h with rfl | h
    · split
      · exact .inr ⟨_, rfl⟩
      · exact .inl (List.mem_cons_self ..)
    · exact (ih h).imp_left (List.mem_cons_of_mem _)

/-- Where an instruction after `pass1` comes from. -/
theorem mem_pass1 {e : Entry} {i : Instruction} (h : e ∈ pass1 env bb) (hi : i ∈ e.insns) :
    (∃ e₀ ∈ bb.insns, i ∈ e₀.insns) ∨ i.kind = .nop ∨ i.kind = .jalReturn := by
  rcases mem_pruneStackStores h with h | ⟨a, rfl⟩
  · obtain ⟨e₀, h₀, rfl⟩ := List.mem_map.mp h
    rw [Entry.replaceTailCall] at hi
    split at hi
    · rcases List.mem_cons.mp hi with rfl | hi
      · exact .inr (.inr rfl)
      · exact .inl ⟨e₀, h₀, List.mem_cons_of_mem _ hi⟩
    · exact .inl ⟨e₀, h₀, hi⟩
  · cases List.mem_singleton.mp hi
    exact .inr (.inl rfl)

end BasicBlock

namespace JavaMethod

variable {m : JavaMethod} {env : Env} {i : Instruction}

theorem mem_insns : i ∈ m.insns env ↔
    ∃ fn ∈ m.functions, ∃ bb ∈ fn.bbs, ∃ e ∈ bb.pass1 env, i ∈ e.insns := by
  simp only [insns, Function.pass1, List.mem_flatMap]
  constructor
  · rintro ⟨e, ⟨fn, hf, bb, hb, he⟩, hi⟩
    exact ⟨fn, hf, bb, hb, e, he, hi⟩
  · rintro ⟨fn, hf, bb, hb, e, he, hi⟩
    exact ⟨e, ⟨fn, hf, bb, hb, he⟩, hi⟩

/-- The opcodes of a method are marked used, apart from what `pass1` puts in. -/
theorem opcode_used (h : i ∈ m.insns env) (hn : i.kind ≠ .nop) (hj : i.kind ≠ .jalReturn)
    (ho : i.opcode ≠ .none) : ∃ fn ∈ m.functions, fn.opcodeIsUsed i.opcode = true := by
  obtain ⟨fn, hf, bb, hb, e, he, hi⟩ := mem_insns.mp h
  rcases BasicBlock.mem_pass1 he hi with ⟨e₀, he₀, hi₀⟩ | hk | hk
  · refine ⟨fn, hf, List.contains_iff_mem.mpr ?_⟩
    exact fn.used bb hb e₀ he₀ _ (Entry.opcode_mem_usedOpcodes hi₀) ho
  · exact absurd hk hn
  · exact absurd hk hj

theorem count_pos_of_filled (h : 0 < (m.filled env).count r) :
    0 < (m.pass1 env).registerUsage.count r := by
  simp only [pass1, pass1From]
  split
  · exact (RegisterUsage.pos_add _ _ _).mpr (.inl h)
  · exact h

theorem mem_fill (h : i ∈ m.insns env)
    (hr : r ∈ i.fillDestinations env ∨ r ∈ i.fillSources env) :
    r ∈ m.functions.flatMap (fun fn => fn.fillDestinations env ++ fn.fillSources env) := by
  obtain ⟨e, he, hi⟩ := List.mem_flatMap.mp h
  obtain ⟨fn, hf, he⟩ := List.mem_flatMap.mp he
  refine List.mem_flatMap.mpr ⟨fn, hf, List.mem_append.mpr ?_⟩
  have hm : i ∈ (fn.pass1 env).flatMap Entry.insns := List.mem_flatMap.mpr ⟨e, he, hi⟩
  rcases hr with hr | hr
  · exact .inl (List.mem_append_left _ (List.mem_flatMap.mpr ⟨i, hm, hr⟩))
  · exact .inr (List.mem_flatMap.mpr ⟨i, hm, hr⟩)

/-- A register that an instruction counts gets a local. -/
theorem counted (h : i ∈ m.insns env)
    (hr : r ∈ i.fillDestinations env ∨ r ∈ i.fillSources env) (hz : r ≠ Reg.zero) :
    (m.pass1 env).regalloc.regIsAllocated r = true := by
  rw [MethodPass1.regalloc, RegisterAllocator.setAllocation_isAllocated]
  apply count_pos_of_filled
  exact (RegisterUsage.pos_addAll _ _ _).mpr (.inr ⟨mem_fill h hr, hz⟩)

end JavaMethod

end Cibyl
