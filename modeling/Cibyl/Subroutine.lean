import Cibyl.Machine
import Cibyl.MemoryCode
import Cibyl.Usage

namespace Cibyl
set_option autoImplicit true

open Jvm (Op Item Label Value World Runtime Runs exec findLabel setLocal setLocal_same setLocal_ne
  ReadWhat)
open Emit (op intOp pushconst pushaddress)
open Bc (lowerAll)

namespace Bc

def label? : Bc → Option Label
  | .item i => i.label?
  | _ => none

theorem lower_label {ra : RegisterAllocator} {b : Bc} {i : Item} (h : i ∈ b.lower ra)
    (hl : i.label? = some l) : b.label? = some l := by
  cases b with
  | pushregister r =>
    rw [lower, pushregisterItem] at h
    split at h
    · cases List.mem_singleton.mp h
      cases hl
    · cases List.mem_singleton.mp h
      split at hl
      · cases hl
      · split at hl <;> cases hl
  | popregister r =>
    rw [lower] at h
    split at h
    · cases h
    · split at h <;> cases List.mem_singleton.mp h <;> cases hl
  | item j =>
    cases List.mem_singleton.mp h
    exact hl
  | astore | ret | iinc =>
    rw [lower] at h
    split at h <;> cases List.mem_singleton.mp h <;> cases hl

/-- Labels are found where they were emitted. -/
theorem findLabel_lowerAll (ra : RegisterAllocator) (l : Label) (bs : List Bc) :
    findLabel (lowerAll ra bs) l = (Labelled.find label? l bs).map (lowerAll ra) := by
  induction bs with
  | nil => rfl
  | cons b bs ih =>
    rw [lowerAll_cons]
    by_cases h : b.label? = some l
    · rw [Labelled.find_of_label h]
      cases b with
      | item i =>
        exact Labelled.find_of_label (show Item.label? i = some l from h) _
      | _ => cases h
    · rw [Labelled.find_of_ne h, ← ih]
      exact Labelled.find_append (fun i hi hl => h (lower_label hi hl)) _

@[simp] theorem label?_op (o : Op) : label? (op o) = none := rfl

@[simp] theorem label?_intOp (o : Jvm.IntOp) : label? (intOp o) = none := rfl

@[simp] theorem label?_pushregister (r : Reg) : label? (.pushregister r) = none := rfl

@[simp] theorem label?_popregister (r : Reg) : label? (.popregister r) = none := rfl

@[simp] theorem label?_item (i : Item) : label? (.item i) = i.label? := rfl

@[simp] theorem label?_pushconst (v : Word) : label? (pushconst v) = none := by
  rw [pushconst]
  repeat' split
  all_goals rfl

end Bc

namespace JavaMethod

theorem initRegisters_label {m : JavaMethod} {b : Bc} (h : b ∈ m.initRegisters p) :
    b.label? = none := by
  obtain ⟨reg, _, h⟩ := List.mem_flatMap.mp h
  rw [initStep] at h
  split at h
  · cases List.mem_singleton.mp h
    rfl
  · split at h
    · cases h
    · split at h
      · rcases List.mem_cons.mp h with rfl | h
        · split
          · exact Bc.label?_pushconst _
          · split
            · rfl
            · exact Bc.label?_pushconst _
        · cases List.mem_singleton.mp h
          rfl
      · cases h

theorem loadSubroutineBody_label (z : WordSize) (isSigned : Bool) :
    ∀ b ∈ loadSubroutineBody z isSigned, b.label? = none := by
  cases z <;> cases isSigned <;> decide

theorem emitSubroutineForOp_load (z : WordSize) (isSigned : Bool) :
    emitSubroutineForOp (z.loadOpcode isSigned) = emitLoadSubroutine z isSigned := by
  cases z <;> cases isSigned <;> rfl

theorem emitSubroutineForOp_cases (o : Opcode) :
    emitSubroutineForOp o = [] ∨ ∃ z isSigned, o = WordSize.loadOpcode z isSigned := by
  rw [emitSubroutineForOp.eq_def]
  split
  · exact .inr ⟨.byte, true, rfl⟩
  · exact .inr ⟨.byte, false, rfl⟩
  · exact .inr ⟨.half, true, rfl⟩
  · exact .inr ⟨.half, false, rfl⟩
  · exact .inl rfl

/-- Each subroutine has a label of its own. -/
theorem emitSubroutineForOp_label {b : Bc} (h : b ∈ emitSubroutineForOp o)
    (hl : b.label? = some (.memoryRead (WordSize.readWhat z isSigned))) :
    o = z.loadOpcode isSigned := by
  rcases emitSubroutineForOp_cases o with he | ⟨z', s', rfl⟩
  · rw [he] at h
    cases h
  · rw [emitSubroutineForOp_load] at h
    rcases List.mem_cons.mp h with rfl | h
    · have hw : z'.readWhat s' = z.readWhat isSigned := by
        injection Option.some.inj hl
      cases z <;> cases z' <;> cases isSigned <;> cases s' <;> first
        | rfl
        | cases hw
    · rw [loadSubroutineBody_label z' s' b h] at hl
      cases hl

theorem find_subroutine {os : List Opcode} (h : WordSize.loadOpcode z isSigned ∈ os)
    (bs : List Bc) :
    ∃ cs, Labelled.find Bc.label? (.memoryRead (z.readWhat isSigned))
      (os.flatMap emitSubroutineForOp ++ bs) = some (loadSubroutineBody z isSigned ++ cs) := by
  induction os with
  | nil => cases h
  | cons o os ih =>
    rw [List.flatMap_cons, List.append_assoc]
    by_cases ho : o = z.loadOpcode isSigned
    · subst ho
      rw [emitSubroutineForOp_load, emitLoadSubroutine, List.cons_append,
        Labelled.find_of_label (show Bc.label? _ = some _ from rfl)]
      exact ⟨_, rfl⟩
    · rw [Labelled.find_append (fun b hb hl => ho (emitSubroutineForOp_label hb hl))]
      rcases List.mem_cons.mp h with rfl | h
      · exact absurd rfl ho
      · exact ih h

theorem mem_subroutineOps {m : JavaMethod} (h : fn ∈ m.functions)
    (ho : fn.opcodeIsUsed (WordSize.loadOpcode z isSigned) = true) :
    z.loadOpcode isSigned ∈ m.subroutineOps := by
  rw [subroutineOps, List.mem_eraseDups]
  refine List.mem_flatMap.mpr ⟨fn, h, List.mem_filter.mpr ⟨?_, ho⟩⟩
  cases z <;> cases isSigned <;> decide

/-- The body of a method has the subroutine of every partial load in it. -/
theorem findLabel_subroutine {m : JavaMethod} {i : Instruction}
    (hj : env.config.optimizePartialMemoryOps = true) (hi : i ∈ m.insns env)
    (hk : i.kind = .partialLoad z isSigned) (ho : i.opcode = z.loadOpcode isSigned) :
    ∃ c, findLabel (m.pass2 env) (.memoryRead (z.readWhat isSigned)) =
      some (lowerAll (m.pass1 env).regalloc (loadSubroutineBody z isSigned) ++ c) := by
  have hnone : i.opcode ≠ .none := by
    rw [ho]
    cases z <;> cases isSigned <;> exact Opcode.noConfusion
  obtain ⟨fn, hf, hu⟩ := opcode_used hi (by rw [hk]; exact Kind.noConfusion)
    (by rw [hk]; exact Kind.noConfusion) hnone
  rw [ho] at hu
  simp only [pass2, pass2Lines, Bc.findLabel_lowerAll, List.append_assoc, if_pos hj]
  rw [Labelled.find_append (fun b hb => by rw [initRegisters_label hb]; exact nofun),
    List.cons_append, Labelled.find_of_ne (by exact nofun), emitSubroutines]
  obtain ⟨cs, hc⟩ := find_subroutine (mem_subroutineOps hf hu) _
  exact ⟨lowerAll (m.pass1 env).regalloc cs, by rw [hc, Option.map_some, Bc.lowerAll_append]⟩

end JavaMethod

section

variable {ra : RegisterAllocator} {rt : Runtime σ} {w : World σ} {body : List Item}
  {l : Nat → Value}

/-- The subroutine up to its array access. -/
theorem exec_subroutineIndex (isSigned : Bool) (hk : ra.regToLocal Reg.madr = some k)
    (hm : HoldsMemory ra l) (z : WordSize) (a : Word) (c : List Item) (s : List Value) :
    exec rt (lowerAll ra (JavaMethod.loadSubroutineOps z isSigned)) ⟨.ret c :: .int a :: s, l, w⟩ =
      exec rt (lowerAll ra ([op .iaload, op .swap, pushconst z.lane, intOp .iand, pushconst z.lane,
          op .swap, intOp .isub, pushconst 3, intOp .ishl, intOp .iushr] ++
          Instruction.extendCode z isSigned))
        ⟨.int (iushr a 2) :: .ref .memory :: .int a :: s, setLocal l k (.ret c), w⟩ := by
  obtain ⟨n, hn, hv⟩ := hm
  have hne : n ≠ k := by
    rintro rfl
    exact absurd (ra.injective hn hk) (by decide)
  have hv' : setLocal l k (.ret c) n = .ref .memory := (setLocal_ne l _ hne).trans hv
  have hs : exec rt (lowerAll ra [.astore Reg.madr]) ⟨.ret c :: .int a :: s, l, w⟩ =
      .ok ⟨.int a :: s, setLocal l k (.ret c), w⟩ := by
    rw [Bc.lowerAll_cons, Bc.lower, hk]
    rfl
  rw [JavaMethod.loadSubroutineOps, List.cons_append, ← List.singleton_append, Bc.lowerAll_append,
    Jvm.exec_append, hs, Jvm.Outcome.bind_ok]
  simp only [List.cons_append, List.nil_append]
  rw [exec_op (Jvm.exec_dup_int ..), Bc.exec_pushmem hn hv',
    exec_op (Jvm.exec_swap _ _ _ _ rfl rfl), Bc.exec_pushconst, exec_intOp rfl]

/-- What the subroutine leaves on the stack, with the return address in the local of `madr`. -/
theorem exec_loadSubroutine (isSigned : Bool) (hk : ra.regToLocal Reg.madr = some k)
    (hm : HoldsMemory ra l) {a : Word} (ha : a.toNat % WordSize.bytes z = 0)
    (h : a.toNat < w.memory.size) (c : List Item) (s : List Value) :
    exec rt (lowerAll ra (JavaMethod.loadSubroutineOps z isSigned)) ⟨.ret c :: .int a :: s, l, w⟩ =
      .ok ⟨.int (Arch.load (z.loadOpcode isSigned) w.memory.flat a.toNat) :: s,
        setLocal l k (.ret c), w⟩ := by
  have hl := z.extend_lane isSigned w.memory ha (Memory.word_lt h)
  rw [exec_subroutineIndex isSigned hk hm, ← hl]
  simp only [List.cons_append, List.nil_append]
  rw [exec_op (exec_iaload (iushr_two_toNat a) (Memory.word_lt h) _),
    exec_op (Jvm.exec_swap _ _ _ _ rfl rfl), Bc.exec_pushconst, exec_intOp rfl,
    Bc.exec_pushconst, exec_op (Jvm.exec_swap _ _ _ _ rfl rfl), exec_intOp rfl,
    Bc.exec_pushconst, exec_intOp rfl, exec_intOp rfl,
      ← List.append_nil (Instruction.extendCode ..),
    exec_extendCode]
  rfl

/-- A call of the subroutine comes back with the loaded value. -/
theorem runs_loadSubroutine (hk : ra.regToLocal Reg.madr = some k) (hm : HoldsMemory ra l)
    {a : Word} (ha : a.toNat % WordSize.bytes z = 0) (h : a.toNat < w.memory.size)
    (hf : findLabel body (.memoryRead (z.readWhat isSigned)) =
      some (lowerAll ra (JavaMethod.loadSubroutineBody z isSigned) ++ c))
    (rest : List Item) (s : List Value) :
    Runs rt body ⟨.jsr (.memoryRead (z.readWhat isSigned)) :: rest, ⟨.int a :: s, l, w⟩⟩
      ⟨rest, ⟨.int (Arch.load (z.loadOpcode isSigned) w.memory.flat a.toNat) :: s,
        setLocal l k (.ret rest), w⟩⟩ := by
  have he : exec rt _ _ = .ok _ := exec_loadSubroutine isSigned hk hm ha h rest s
  have hret : lowerAll ra [.ret Reg.madr] = [.ret k] := by
    rw [Bc.lowerAll_cons, Bc.lower, hk]
    rfl
  refine Runs.head (d := ⟨lowerAll ra (JavaMethod.loadSubroutineBody z isSigned) ++ c,
    ⟨.ret rest :: .int a :: s, l, w⟩⟩) ?_ ?_
  · rw [Jvm.step, Jvm.jump, hf]
  · rw [JavaMethod.loadSubroutineBody, Bc.lowerAll_append, List.append_assoc, hret]
    refine (Runs.of_exec he _).trans (.of_step ?_)
    simp only [List.singleton_append, Jvm.step, setLocal_same]

end

end Cibyl
