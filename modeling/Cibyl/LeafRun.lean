import Cibyl.ComputedJumps
import Cibyl.Library.Simulation
import Cibyl.MipsMachine

namespace Cibyl
set_option autoImplicit true

open InstructionFactory (create ofOpcode decodeExtra)
open Jvm (Item Label Value World Runtime Runs step jump findLabel exec)
open Bc (lowerAll)

section

variable {insn : Instruction} {m : JavaMethod} {env : Env} {ra : RegisterAllocator}
  {regs : RegFile} {l : Nat → Value} {a : Word}

/-- What an arithmetic instruction counts is what it reads and writes, but for HI. -/
theorem Instruction.alu_counts (hc : create a word = some insn) (ho : insn.opcode ∈ aluOpcodes)
    (env : Env) (regs : RegFile) :
    Arch.sources insn.opcode word = insn.fillSources env ∧
      (Arch.destinations insn.opcode word regs = insn.fillDestinations env ∨
        (insn.opcode = .mult ∨ insn.opcode = .div) ∧ insn.usingHi env = false ∧
          insn.fillDestinations env = [Reg.lo]) := by
  obtain ⟨-, hof⟩ := create_alu hc ho
  by_cases hm : insn.opcode = .mult ∨ insn.opcode = .div
  · cases hu : insn.usingHi env with
    | true =>
      rcases hm with h | h <;> rw [h] at hof ⊢ <;> cases hof <;>
        exact ⟨rfl, .inl (by rw [Instruction.fillDestinations, if_pos hu]; rfl)⟩
    | false =>
      rcases hm with h | h <;> rw [h] at hof ⊢ <;> cases hof <;>
        refine ⟨rfl, .inr ⟨by simp, rfl, ?_⟩⟩ <;>
        exact if_neg (by rw [hu]; exact Bool.false_ne_true)
  · simp only [aluOpcodes, List.mem_cons, List.not_mem_nil, or_false] at ho
    rcases ho with h | h | h | h | h | h | h | h | h | h | h | h | h | h | h | h | h | h | h | h |
      h | h | h | h | h | h | h | h | h | h
    all_goals try exact absurd (Or.inl h) hm
    all_goals try exact absurd (Or.inr h) hm
    all_goals
      rw [h] at hof ⊢
      cases hof
      exact ⟨rfl, .inl rfl⟩

theorem Arch.mfhi_of_sources (h : Reg.hi ∈ Arch.sources o word) : o = .mfhi := by
  rcases Arch.sources_cases h with h | h | h | h
  · exact absurd h.symm (Arch.reg_ne_hi word 21)
  · exact absurd h.symm (Arch.reg_ne_hi word 16)
  · exact h.1
  · exact absurd h (by decide)

/-- An arithmetic instruction of a method assigns what the architecture says, or all but HI where
the method does not read it. -/
theorem JavaMethod.alu_assigns {rt : Runtime σ} {w : World σ} (hi : insn ∈ m.insns env)
    (hc : create a word = some insn) (ho : insn.opcode ∈ aluOpcodes)
    (hd : Reg.zero ∉ insn.fillDestinations env)
    (hz : insn.opcode = .div ∨ insn.opcode = .divu → regs.get (Arch.rt word) ≠ 0)
    (hl : Holds (m.pass1 env).regalloc regs l) :
    ∃ ws, Assigns rt (m.pass1 env).regalloc l w (insn.code env) ws ∧
      (∀ p ∈ ws, p.1 ∈ insn.fillDestinations env ∧
        p.1 ∈ Arch.destinations insn.opcode word regs) ∧
      (ws = Arch.writes insn.opcode word regs ∨ insn.usingHi env = false ∧
        ws = (Arch.writes insn.opcode word regs).filter (fun p => p.1 ≠ Reg.hi)) := by
  obtain ⟨hdec, hof⟩ := create_alu hc ho
  obtain ⟨hs, hdst⟩ := insn.alu_counts hc ho env regs
  have hmem {p : Reg × Word} (hp : p ∈ Arch.writes insn.opcode word regs) :
      p.1 ∈ Arch.destinations insn.opcode word regs := List.mem_map_of_mem hp
  rcases hdst with hdst | ⟨hm, hu, hone⟩
  · have key : AssignsAlu rt (m.pass1 env).regalloc l w env insn _ :=
      code_assigns hof ho hdec (fun r hr hrz => counted hi (by
        rw [hs, hdst] at hr
        exact (List.mem_append.mp hr).symm) hrz) (fun d h h0 => hd (hdst ▸ h0 ▸ h)) hz hl
    rcases key with h | ⟨hu, h⟩
    · exact ⟨_, h, fun p hp => ⟨hdst ▸ hmem hp, hmem hp⟩, .inl rfl⟩
    · refine ⟨_, h, fun p hp => ?_, .inr ⟨hu, rfl⟩⟩
      have hp := hmem (List.mem_filter.mp hp).1
      exact ⟨hdst ▸ hp, hp⟩
  · have hread {r : Reg} (hr : r ∈ Arch.sources insn.opcode word) :
        Readable (m.pass1 env).regalloc r :=
      readable_of_counted hi (hs ▸ hr) (Arch.sources_ordinary hr)
    have hlo : Writable (m.pass1 env).regalloc Reg.lo :=
      writable_of_counted hi (by rw [hone]; exact .head _) (by decide) (by decide)
    refine ⟨_, ?_, fun p hp => ?_, .inr ⟨hu, rfl⟩⟩
    · rcases hm with h | h <;> rw [h] at hof hread hz ⊢ <;> cases hof
      · exact mult_low_assigns hl (hread (.head _)) (hread (.tail _ (.head _))) hlo hu
      · exact div_low_assigns hl (hread (.head _)) (hread (.tail _ (.head _))) hlo (hz (.inl rfl))
          hu
    · obtain ⟨hp, hne⟩ := List.mem_filter.mp hp
      have hp := hmem hp
      refine ⟨?_, hp⟩
      have hm : insn.opcode ∈ muldivOpcodes := by rcases hm with h | h <;> rw [h] <;> decide
      rw [(muldiv_names hm word regs).2] at hp
      rcases List.mem_cons.mp hp with h | h
      · rw [hone, h]
        exact .head _
      · rw [List.mem_singleton.mp h] at hne
        exact absurd hne (by decide)

/-- What an access counts. -/
theorem MemoryKind.counts (hk : MemoryKind insn.opcode insn.kind) (env : Env) :
    insn.rs ∈ insn.fillSources env ∧ Reg.mem ∈ insn.fillSources env ∧
      (insn.opcode ∈ loadOpcodes → insn.rt ∈ insn.fillDestinations env) ∧
      (insn.opcode ∈ storeOpcodes → insn.rt ∈ insn.fillSources env) := by
  rw [Instruction.fillSources, Instruction.fillDestinations]
  generalize insn.opcode = o, insn.kind = k at hk
  cases hk with
  | lw =>
    refine ⟨.head _, .tail _ (.head _), fun _ => ?_, fun h => absurd h (by decide)⟩
    dsimp only
    split <;> exact .head _
  | sw => exact ⟨.head _, .tail _ (.tail _ (.head _)), fun h => absurd h (by decide),
      fun _ => .tail _ (.head _)⟩
  | load z isSigned =>
    refine ⟨.head _, .tail _ (.head _), fun _ => ?_, fun h => ?_⟩
    · dsimp only
      split <;> exact .head _
    · cases z <;> cases isSigned <;> exact absurd h (by decide)
  | store z =>
    refine ⟨.head _, .tail _ (.tail _ (.head _)), fun h => ?_, fun _ => .tail _ (.head _)⟩
    cases z <;> exact absurd h (by decide)

end

namespace JavaMethod

/-- HI is read somewhere in the method. -/
def usesHi (m : JavaMethod) : Bool := m.opcodeIsUsed .mfhi || m.opcodeIsUsed .mthi

/-- The registers whose values the locals of a leaf method keep. -/
def Keeps (m : JavaMethod) (r : Reg) : Prop := r ≠ Reg.ra ∧ (r = Reg.hi → m.usesHi = true)

/-- A slot that an address of the text section names, with its label. -/
def Lands (env : Env) (m : JavaMethod) (a : Word) : Prop :=
  ∃ e ∈ m.slots env, e.insn.kind ≠ .delaySlotNop ∧ e.insn.address = a ∧ e.hasLabel env = true

/-- One function that calls nothing, and that `pass1` leaves as it is. -/
structure Leaf (env : Env) (m : JavaMethod) : Prop where
  single : m.hasMultipleFunctions = false
  method : ∀ i ∈ m.insns env, i.method env = some m
  kept : m.slots env = m.functions.flatMap Function.entries
  begins : ∀ e ∈ (m.slots env).head?, e.insn.kind ≠ .delaySlotNop
  plain : ∀ i ∈ m.insns env, i.kind ≠ .delaySlotNop →
    i.opcode ∈ aluOpcodes ++ memoryOpcodes ++ branchOpcodes
  delayed : ∀ e ∈ m.slots env, ∀ d ∈ e.delayed, d.isBranch = false
  zero : ∀ i ∈ m.insns env, Reg.zero ∈ i.fillDestinations env → i.code env = []
  ra : ∀ i ∈ m.insns env, Reg.ra ∈ i.counts env → i.opcode = .jr
  site : ∀ i ∈ m.insns env, i.isSite env = false
  jump : ∀ i ∈ m.insns env, i.kind = .jump → env.getBranchTarget (i.extra <<< 2) = true
  targets : ∀ a ∈ m.targets env, m.Lands env a
  ends : ∃ before e, m.slots env = before ++ [e] ∧ e.delayed.isSome = true ∧
    (e.insn.opcode = .j ∨ e.insn.opcode = .jr)
  traceStores : env.config.traceStores = false
  untraced : ∀ e ∈ m.slots env, Entry.traced env e.insn = false

/-- The frame holds the registers and the memory of the processor. -/
structure Carries (env : Env) (m : JavaMethod) (size : Nat) (w₀ : World σ) (regs : RegFile)
    (f : Lanes.Flat) (l : Nat → Value) (w : World σ) : Prop where
  holds : ∃ regs', Holds (m.pass1 env).regalloc regs' l ∧
    ∀ r, m.Keeps r → regs'.get r = regs.get r
  memory : ∀ n, (m.pass1 env).regalloc.regToLocal Reg.mem = some n → l n = .ref .memory
  unused : ∀ r ∈ [Reg.v0, Reg.v1], (m.pass1 env).regalloc.regToLocal r = none → regs.get r = 0
  world : w = { w₀ with memory := w.memory }
  flat : w.memory.flat = f
  size : w.memory.size = size

/-- The code is that of the slot at `pc` behind its label, or the end of the method. -/
inductive Placed (env : Env) (m : JavaMethod) (ret pc : Word) (c : List Item) : Prop where
  | slot (hs : m.slots env = before ++ e :: es)
    (hat : m.At env (e :: es) (lowerAll (m.pass1 env).regalloc (e.headCode env) ++ c))
    (hk : e.insn.kind ≠ .delaySlotNop) (ha : e.insn.address = pc)
  | caller (h : findLabel (m.pass2 env) .functionReturn = some c) (ha : pc = ret)

/-- The method stands where the processor stands. -/
structure Simulates (env : Env) (m : JavaMethod) (size : Nat) (ret : Word) (w₀ : World σ)
    (s : Arch.Machine) (c : Jvm.Config σ) : Prop where
  stack : c.frame.stack = []
  carries : m.Carries env size w₀ s.regs s.memory c.frame.locals c.frame.world
  ra : s.regs.get Reg.ra = ret
  placed : m.Placed env ret s.pc c.code

section

variable {m : JavaMethod} {env : Env} {i : Instruction} {regs regs' : RegFile} {word a : Word}
  {l : Nat → Value} {w w₀ : World σ} {f f' : Lanes.Flat} {size : Nat}

theorem Leaf.usesHi (h : m.Leaf env) (hi : i ∈ m.insns env) : i.usingHi env = m.usesHi := by
  rw [Instruction.usingHi, h.method i hi]
  rfl

theorem Leaf.keeps_source (h : m.Leaf env) (hi : i ∈ m.insns env) (hc : create a word = some i)
    (ho : i.opcode ∈ aluOpcodes) (hr : r ∈ Arch.sources i.opcode word) : m.Keeps r := by
  refine ⟨fun hra => ?_, fun hhi => ?_⟩
  · have hs : Reg.ra ∈ i.counts env :=
      List.mem_append_right _ ((i.alu_counts hc ho env ⟨fun _ => 0, rfl⟩).1 ▸ hra ▸ hr)
    rw [h.ra i hi hs] at ho
    exact absurd ho (by decide)
  · have hop := Arch.mfhi_of_sources (hhi ▸ hr)
    have hk : i.kind = .mfxx := by
      obtain ⟨-, hof⟩ := create_alu hc ho
      rw [hop] at hof
      cases hof
      rfl
    obtain ⟨fn, hfn, hu⟩ := opcode_used hi (by rw [hk]; exact fun h => by cases h)
      (by rw [hk]; exact fun h => by cases h) (by rw [hop]; exact fun h => by cases h)
    rw [JavaMethod.usesHi, opcodeIsUsed, Bool.or_eq_true]
    exact .inl (List.any_eq_true.mpr ⟨fn, hfn, hop ▸ hu⟩)

/-- Assignments to registers with locals carry over. -/
theorem Carries.assign (hcar : m.Carries env size w₀ regs f l w)
    (hl : Holds (m.pass1 env).regalloc regs₁ l)
    (ha : ∀ p ∈ ws, (m.pass1 env).regalloc.regIsAllocated p.1 = true ∧ Reg.Ordinary p.1)
    (hk : ∀ r, m.Keeps r → (regs₁.setAll ws).get r = regs'.get r)
    (hu : ∀ r, (m.pass1 env).regalloc.regToLocal r = none → r ≠ Reg.hi →
      regs'.get r = regs.get r) :
    m.Carries env size w₀ regs' f (writeLocals (m.pass1 env).regalloc l ws) w where
  holds := ⟨_, hl.writeLocals fun p hp => (ha p hp).1, hk⟩
  memory := by
    intro n hn
    rw [writeLocals_of_not_mem, hcar.memory n hn]
    intro p hp hpn
    exact (ha p hp).2.1 ((m.pass1 env).regalloc.injective hpn hn)
  unused := by
    intro r hr hn
    rw [hu r hn, hcar.unused r hr hn]
    rintro rfl
    exact absurd hr (by decide)
  world := hcar.world
  flat := hcar.flat
  size := hcar.size

/-- The code of an instruction does to the frame what the processor does to its registers and
its memory. -/
def Performed (env : Env) (m : JavaMethod) (size : Nat) (w₀ : World σ) (rt : Runtime σ)
    (i : Instruction) (l : Nat → Value) (w : World σ) (regs regs' : RegFile) (f : Lanes.Flat) :
    Prop :=
  regs'.get Reg.ra = regs.get Reg.ra ∧ ∀ rest s, ∃ l' w',
    Runs rt (m.pass2 env) ⟨lowerAll (m.pass1 env).regalloc (i.code env) ++ rest, ⟨s, l, w⟩⟩
      ⟨rest, ⟨s, l', w'⟩⟩ ∧ m.Carries env size w₀ regs' f l' w'

theorem Performed.of_nop (hcar : m.Carries env size w₀ regs f l w) (hc : i.code env = [])
    (hr : regs' = regs) (rt : Runtime σ) : m.Performed env size w₀ rt i l w regs regs' f := by
  subst hr
  refine ⟨rfl, fun rest s => ⟨l, w, ?_, hcar⟩⟩
  rw [hc]
  exact .refl _

theorem Leaf.performs_alu (h : m.Leaf env) (hi : i ∈ m.insns env) (hc : create a word = some i)
    (ho : i.opcode ∈ aluOpcodes) (hcar : m.Carries env size w₀ regs f l w)
    (hz : ¬ ((i.opcode = .div ∨ i.opcode = .divu) ∧ regs.get (Arch.rt word) = 0))
    (rt : Runtime σ) : m.Performed env size w₀ rt i l w regs
      (regs.setAll (Arch.writes i.opcode word regs)) f := by
  obtain ⟨hs, hdst⟩ := i.alu_counts hc ho env regs
  have hmem {p : Reg × Word} (hp : p ∈ Arch.writes i.opcode word regs) :
      p.1 ∈ Arch.destinations i.opcode word regs := List.mem_map_of_mem hp
  by_cases hzero : Reg.zero ∈ i.fillDestinations env
  · rcases hdst with hdst | ⟨-, -, hone⟩
    · refine .of_nop hcar (h.zero i hi hzero) (regs.setAll_zero fun p hp => ?_) rt
      exact Arch.destinations_zero (hdst ▸ hzero) (hmem hp)
    · rw [hone] at hzero
      exact absurd hzero (by decide)
  · obtain ⟨regs₁, hl, hag⟩ := hcar.holds
    have hsame : ∀ r ∈ Arch.sources i.opcode word, regs₁.get r = regs.get r :=
      fun r hr => hag r (h.keeps_source hi hc ho hr)
    have hw := Arch.writes_congr ho hsame
    have hdiv : i.opcode = .div ∨ i.opcode = .divu → regs₁.get (Arch.rt word) ≠ 0 := by
      intro hd h0
      refine hz ⟨hd, ?_⟩
      rw [← hsame, h0]
      rcases hd with hd | hd <;> rw [hd] <;> exact .tail _ (.head _)
    obtain ⟨ws, hassign, hws, hcase⟩ := alu_assigns (w := w) hi hc ho hzero hdiv hl
    rw [hw] at hcase
    refine ⟨regs.setAll_of_not_mem fun p hp hra => ?_, fun rest s =>
      ⟨_, w, Runs.of_exec (hassign s) rest, hcar.assign hl (fun p hp => ?_) (fun r hr => ?_)
        (fun r hr hhi => regs.setAll_of_not_mem fun p hp hpr => ?_)⟩⟩
    · have hp := hmem hp
      rcases hdst with hdst | ⟨hm, -, -⟩
      · have hcount : Reg.ra ∈ i.counts env := List.mem_append_left _ (hdst ▸ hra ▸ hp)
        rw [h.ra i hi hcount] at ho
        exact absurd ho (by decide)
      · have hm : i.opcode ∈ muldivOpcodes := by rcases hm with h | h <;> rw [h] <;> decide
        rw [(muldiv_names hm word regs).2, ← hra] at hp
        exact absurd hp (by decide)
    · obtain ⟨hp, hpd⟩ := hws p hp
      exact ⟨counted hi (.inl hp) fun h0 => hzero (h0 ▸ hp), Arch.destinations_ordinary hpd⟩
    · rcases hcase with rfl | ⟨hu, rfl⟩
      · exact RegFile.setAll_congr (hag r hr) _
      · refine RegFile.setAll_filter (hag r hr) (fun hhi => ?_) _
        rw [h.usesHi hi, hr.2 hhi] at hu
        cases hu
    · have hp := hmem hp
      have hcount : r ∈ i.fillDestinations env := by
        rcases hdst with hdst | ⟨hm, -, hone⟩
        · exact hdst ▸ hpr ▸ hp
        · have hm : i.opcode ∈ muldivOpcodes := by rcases hm with h | h <;> rw [h] <;> decide
          rw [(muldiv_names hm word regs).2, ← hpr] at hp
          rw [hone]
          rcases List.mem_cons.mp hp with hp | hp
          · exact List.mem_singleton.mpr hp
          · exact absurd (List.mem_singleton.mp hp) hhi
      have hal := counted hi (.inl hcount) fun h0 => hzero (h0 ▸ hcount)
      rw [RegisterAllocator.regIsAllocated, hr] at hal
      cases hal

theorem Leaf.accesses (h : m.Leaf env) (hi : i ∈ m.insns env) (hc : create a word = some i)
    (ho : i.opcode ∈ memoryOpcodes) (hcar : m.Carries env size w₀ regs f l w)
    (hx : Arch.Accesses size i.opcode word regs) : ∃ regs₁,
    Holds (m.pass1 env).regalloc regs₁ l ∧ (∀ r, m.Keeps r → regs₁.get r = regs.get r) ∧
      HoldsMemory (m.pass1 env).regalloc l ∧ MemoryKind i.opcode i.kind ∧
      i.rs = Arch.rs word ∧ i.rt = Arch.rt word ∧ (i.indexed env = true → i.skipsRa env = false) ∧
      regs₁.get i.rs + i.extra = Arch.effective word regs ∧
      Indexes regs₁ i w.memory := by
  obtain ⟨-, hrs, hrt, hxt, hof⟩ := create_access hc (List.mem_append_left _ ho)
  have hk := memoryKind_of_create hof ho
  obtain ⟨hcs, hcm, hld, hst⟩ := hk.counts env
  obtain ⟨regs₁, hl, hag⟩ := hcar.holds
  have hne : i.opcode ≠ .jr := by
    intro hj
    rw [hj] at ho
    exact absurd ho (by decide)
  have hkeep : m.Keeps i.rs := by
    refine ⟨fun hra => hne (h.ra i hi (List.mem_append_right _ (hra ▸ hcs))), fun hhi => ?_⟩
    rw [hrs] at hhi
    exact absurd hhi (Arch.reg_ne_hi word 21)
  have heff : regs₁.get i.rs + i.extra = Arch.effective word regs := by
    rw [hag _ hkeep, Arch.effective, hrs, hxt]
  obtain ⟨hwrap, hlt, -⟩ := hx
  obtain ⟨n, hn⟩ := Option.isSome_iff_exists.mp (counted hi (.inr hcm) (by decide))
  refine ⟨regs₁, hl, hag, ⟨n, hn, hcar.memory n hn⟩, hk, hrs, hrt, fun _ => ?_, heff, ?_⟩
  · rw [Instruction.skipsRa, Bool.and_eq_false_iff]
    left
    rw [beq_eq_false_iff_ne]
    intro hra
    refine hne (h.ra i hi ?_)
    have hcase : ∀ o ∈ memoryOpcodes, o ∈ loadOpcodes ∨ o ∈ storeOpcodes := by decide
    rcases hcase _ ho with hl | hs
    · exact List.mem_append_left _ (hra ▸ hld hl)
    · exact List.mem_append_right _ (hra ▸ hst hs)
  · refine indexes_of_range hxt ?_ fun _ => ?_
    · rw [heff, hcar.size]
      exact hlt
    · rw [hag _ hkeep, hrs, hwrap]
      exact_mod_cast (Arch.effective word regs).isLt

theorem Leaf.performs_load (h : m.Leaf env) (hi : i ∈ m.insns env) (hc : create a word = some i)
    (ho : i.opcode ∈ loadOpcodes) (hcar : m.Carries env size w₀ regs f l w)
    (hx : Arch.Accesses size i.opcode word regs) (rt : Runtime σ) :
    m.Performed env size w₀ rt i l w regs
      (regs.set (Arch.rt word) (Arch.load i.opcode f (Arch.effective word regs).toNat)) f := by
  have hmem : i.opcode ∈ memoryOpcodes := by
    revert ho
    generalize i.opcode = o
    revert o
    decide
  obtain ⟨regs₁, hl, hag, hm, hk, hrs, hrt, hra, heff, hidx⟩ := h.accesses hi hc hmem hcar hx
  have hd := (hk.counts env).2.2.1 ho
  have hort : Reg.Ordinary i.rt := hrt ▸ Arch.reg_ordinary word 16
  obtain ⟨-, hlt, hal⟩ := hx
  by_cases hzero : i.rt = Reg.zero
  · refine .of_nop hcar (h.zero i hi (hzero ▸ hd)) ?_ rt
    have hset (v : Word) : regs.setAll [(Arch.rt word, v)] = regs :=
      regs.setAll_zero (fun p hp => List.mem_singleton.mp hp ▸ hrt ▸ hzero)
    exact hset _
  · refine ⟨RegFile.get_set_ne _ (fun hra => ?_) _, fun rest s => ?_⟩
    · have hcount : Reg.ra ∈ i.counts env := List.mem_append_left _ (hra ▸ hrt ▸ hd)
      rw [h.ra i hi hcount] at ho
      exact absurd ho (by decide)
    · rw [← heff, ← hcar.size] at hlt
      rw [← heff] at hal
      have hx : ∃ l', Runs rt (m.pass2 env) _ ⟨rest, ⟨s, l', w⟩⟩ ∧ _ :=
        runs_load hi hk ho (hrs ▸ Arch.reg_ordinary word 21) hort hzero hl hm hra (fun _ => hidx)
          hlt hal rest s
      obtain ⟨l', hrun, hload⟩ := hx
      rw [heff, hcar.flat] at hload
      refine ⟨l', w, hrun, ⟨⟨_, hload.holds, fun r hr => ?_⟩, fun n hn => ?_, fun r hr hn => ?_,
        hcar.world, hcar.flat, hcar.size⟩⟩
      · rw [hrt]
        exact RegFile.setAll_congr (hag r hr) [(_, _)]
      · obtain ⟨n', hn', hv⟩ := hload.memory
        cases hn.symm.trans hn'
        exact hv
      · rw [RegFile.get_set_ne, hcar.unused r hr hn]
        intro hrr
        have hal := counted hi (.inl hd) hzero
        rw [RegisterAllocator.regIsAllocated, hrt, ← hrr, hn] at hal
        cases hal

theorem Leaf.performs_store (h : m.Leaf env) (hi : i ∈ m.insns env) (hc : create a word = some i)
    (ho : i.opcode ∈ storeOpcodes) (hcar : m.Carries env size w₀ regs f l w)
    (hx : Arch.Accesses size i.opcode word regs) (rt : Runtime σ) (rest : List Item)
    (s : List Value) : ∃ w',
      Runs rt (m.pass2 env) ⟨lowerAll (m.pass1 env).regalloc (i.code env) ++ rest, ⟨s, l, w⟩⟩
        ⟨rest, ⟨s, l, w'⟩⟩ ∧ m.Carries env size w₀ regs (Arch.store i.opcode f
          (Arch.effective word regs).toNat (regs.get (Arch.rt word))) l w' := by
  have hmem : i.opcode ∈ memoryOpcodes := by
    revert ho
    generalize i.opcode = o
    revert o
    decide
  obtain ⟨regs₁, hl, hag, hm, hk, hrs, hrt, hra, heff, hidx⟩ := h.accesses hi hc hmem hcar hx
  have hs := (hk.counts env).2.2.2 ho
  obtain ⟨-, hlt, hal⟩ := hx
  have hkeep : m.Keeps (Arch.rt word) := by
    refine ⟨fun hra => ?_, fun hhi => absurd hhi (Arch.reg_ne_hi word 16)⟩
    have hcount : Reg.ra ∈ i.counts env := List.mem_append_right _ (hra ▸ hrt ▸ hs)
    rw [h.ra i hi hcount] at ho
    exact absurd ho (by decide)
  rw [← heff, ← hcar.size] at hlt
  rw [← heff] at hal
  have hx : ∃ m', Runs rt (m.pass2 env) _ ⟨rest, ⟨s, l, { w with memory := m' }⟩⟩ ∧ _ :=
    runs_store hi hk ho (hrs ▸ Arch.reg_ordinary word 21) (hrt ▸ Arch.reg_ordinary word 16) hl hm
      hra (fun _ => hidx) (fun ht => absurd ht (by rw [h.traceStores]; decide)) hlt hal rest s
  obtain ⟨m', hrun, hst⟩ := hx
  refine ⟨_, hrun, hcar.holds, hcar.memory, hcar.unused, ?_, ?_, hst.size.trans hcar.size⟩
  · rw [hcar.world]
  · rw [hst.flat, heff, hcar.flat, hrt, hag _ hkeep]

theorem Instruction.isBranch_of_create (hc : create a word = some i)
    (ho : i.opcode ∈ branchOpcodes) : i.isBranch = true := by
  obtain ⟨hb, -⟩ := Instruction.localBranch_of_create hc ho
  rw [Instruction.isBranch]
  rcases hb with h | h | ⟨bc, h⟩ | ⟨bc, h⟩ <;> rw [h] <;> rfl

theorem mem_accesses (ho : o ∈ memoryOpcodes) :
    o ∈ storeOpcodes ∧ o ∉ loadOpcodes ∨ o ∉ storeOpcodes ∧ o ∈ loadOpcodes := by
  revert o
  decide

theorem Leaf.plain_cases (h : m.Leaf env) (hi : i ∈ m.insns env) (hc : create a word = some i) :
    (i.opcode ∈ aluOpcodes ∧ Arch.aluOpcode word = some i.opcode) ∨
      (i.opcode ∈ memoryOpcodes ∧ Arch.memoryOpcode (Arch.op word) = some i.opcode) ∨
        i.opcode ∈ branchOpcodes := by
  have hplain := h.plain i hi (create_not_delaySlotNop hc)
  rw [List.mem_append, List.mem_append] at hplain
  rcases hplain with (ho | ho) | ho
  · have hdec := (create_alu hc ho).1
    exact .inl ⟨ho, (decodeOpcode_alu (hdec ▸ ho)).trans (congrArg some hdec.symm)⟩
  · have hdec := (create_access hc (List.mem_append_left _ ho)).1
    exact .inr (.inl ⟨ho, (decodeOpcode_memory (hdec ▸ ho)).trans (congrArg some hdec.symm)⟩)
  · exact .inr (.inr ho)

theorem Leaf.branchOpcode_none (h : m.Leaf env) (hi : i ∈ m.insns env)
    (hc : create a word = some i) (hb : i.isBranch = false) : Arch.branchOpcode word = none := by
  rcases h.plain_cases hi hc with ⟨-, hop⟩ | ⟨-, hop⟩ | ho
  · exact Arch.branchOpcode_of_alu hop
  · exact (Arch.aluOpcode_of_memory hop).2
  · rw [Instruction.isBranch_of_create hc ho] at hb
    cases hb

/-- An instruction of a leaf method that is no branch does what the processor does. -/
theorem Leaf.performs (h : m.Leaf env) (hi : i ∈ m.insns env) (hc : create a word = some i)
    (hb : i.isBranch = false) (hcar : m.Carries env size w₀ regs f l w)
    (hx : Arch.execute size word regs f = some (regs', f')) (rt : Runtime σ) :
    regs'.get Reg.ra = regs.get Reg.ra ∧ ∀ rest s, ∃ l' w',
      Runs rt (m.pass2 env) ⟨lowerAll (m.pass1 env).regalloc (i.code env) ++ rest, ⟨s, l, w⟩⟩
        ⟨rest, ⟨s, l', w'⟩⟩ ∧ m.Carries env size w₀ regs' f' l' w' := by
  rcases h.plain_cases hi hc with ⟨ho, hop⟩ | ⟨ho, hop⟩ | ho
  · rw [Arch.execute, hop] at hx
    dsimp only at hx
    split at hx
    · cases hx
    · next hz =>
      cases hx
      exact h.performs_alu hi hc ho hcar hz rt
  · rw [Arch.execute, (Arch.aluOpcode_of_memory hop).1, hop] at hx
    dsimp only at hx
    split at hx
    · next hacc =>
      rcases mem_accesses ho with ⟨hst, -⟩ | ⟨hst, hld⟩
      · rw [if_pos hst] at hx
        cases hx
        refine ⟨rfl, fun rest s => ?_⟩
        obtain ⟨w', hrun, hcar'⟩ := h.performs_store hi hc hst hcar hacc rt rest s
        exact ⟨l, w', hrun, hcar'⟩
      · rw [if_neg hst] at hx
        cases hx
        exact h.performs_load hi hc hld hcar hacc rt
    · cases hx
  · rw [Instruction.isBranch_of_create hc ho] at hb
    cases hb

end

end JavaMethod

end Cibyl
