import Cibyl.Calls
import Cibyl.EmittedLines
import Cibyl.GotoNextLine
import Cibyl.LeafCall

namespace Cibyl
set_option autoImplicit true

open Jvm (Item Label Value World Runtime)
open Mark (defined)

theorem Jvm.Item.straight_of_fits {i : Item} (h : i.fits = true) (hi : i.inline = true) :
    i.straight = true := by
  cases i with
  | op o => cases o <;> first | rfl | exact h
  | jsr | ret | catch_ | abort => cases hi
  | _ => rfl

theorem Jvm.Next.eq_return {n : Jvm.Next σ} (h : n.result? = some (.returned v w)) :
    n = .return_ v w := by
  cases n <;> cases h
  rfl

theorem Bc.labelsOf_lowerAll (ra : RegisterAllocator) (bs : List Bc) :
    Peephole.labelsOf (lowerAll ra bs) = defined (allMarks bs) := by
  have hline (b : Bc) : Peephole.labelsOf (b.lower ra) = defined b.marks := by
    cases b with
    | pushregister r =>
      rw [lower]
      split
      · rfl
      · rw [pushregisterItem]
        split
        · rfl
        · split <;> rfl
    | popregister r =>
      rw [lower]
      split
      · rfl
      · split <;> rfl
    | astore r | ret r | iinc r k =>
      rw [lower]
      split <;> rfl
    | item i =>
      cases i with
      | tableswitch ls d => exact (Mark.defined_map_names _).symm
      | lookupswitch cs d => exact (Mark.defined_map_names _).symm
      | _ => rfl
  induction bs with
  | nil => rfl
  | cons b bs ih =>
    rw [lowerAll_cons, Peephole.labelsOf_append, hline, ih, allMarks_cons, Mark.defined_append]

namespace JavaMethod

variable {env : Env} {m : JavaMethod} {base : Word} {text : List Word} {ret : Word}

theorem count_subroutineLabel_le (m : JavaMethod) (bc : Jvm.ReadWhat) :
    (m.subroutineOps.flatMap (fun o => defined (Bc.allMarks (emitSubroutineForOp o)))).count
      (.memoryRead bc) ≤ 1 := by
  have hread (z : WordSize) (isSigned : Bool) :
      (m.subroutineOps.flatMap (fun o => defined (Bc.allMarks (emitSubroutineForOp o)))).count
        (.memoryRead (z.readWhat isSigned)) ≤ 1 := by
    rw [count_subroutineLabel]
    exact List.nodup_iff_count_le_one.mp (eraseDups_nodup _) _
  cases bc with
  | byte => exact hread .byte true
  | byteUnsigned => exact hread .byte false
  | short => exact hread .half true
  | shortUnsigned => exact hread .half false
  | wordLeft =>
    refine (List.count_eq_zero.mpr fun hm => ?_).trans_le (Nat.zero_le 1)
    obtain ⟨o, -, hm⟩ := List.mem_flatMap.mp hm
    rcases emitSubroutineForOp_cases o with he | ⟨z, isSigned, rfl⟩
    · rw [he] at hm
      cases hm
    · rw [subroutine_marks] at hm
      cases z <;> cases isSigned <;> cases List.mem_singleton.mp hm

/-- Where no place of the method is another one, no label is defined twice. -/
theorem labels_nodup (env : Env) (m : JavaMethod)
    (hplaces : (m.entryPoints ++ (m.labelled env ++ (m.sites env ++
      (m.againAddresses env ++ m.againSites env)))).Nodup)
    (hagains : (m.againAddresses env).Nodup)
    (hhandlers : ((m.handlers env).map ExceptionHandler.label).Nodup) :
    (Peephole.labelsOf (m.pass2 env)).Nodup := by
  rw [pass2, Bc.labelsOf_lowerAll, List.nodup_iff_count_le_one]
  intro l
  cases l with
  | addr a =>
    rw [count_addr]
    exact List.nodup_iff_count_le_one.mp hplaces a
  | out a =>
    rw [count_out]
    exact List.nodup_iff_count_le_one.mp hagains a
  | memoryRead bc =>
    rw [count_defined, count_functions (by simp) (by simp), count_handlers (by simp) (by simp),
      count_returnLabels (by simp)]
    have hle := m.count_subroutineLabel_le bc
    split <;> simp [hle]
  | localJumptab =>
    rw [count_localJumptab]
    split <;> decide
  | handler start stop =>
    rw [count_handler]
    exact List.nodup_iff_count_le_one.mp hhandlers _
  | setjmpNotThis start stop =>
    rw [count_notThis]
    exact (count_notThis_le _ start stop).trans (List.nodup_iff_count_le_one.mp hhandlers _)
  | functionReturnNonLocal =>
    by_cases hl : .functionReturnNonLocal ∈ m.returnLabels env
    · exact Nat.le_of_eq (count_nonLocal hl)
    · rw [count_defined, count_functions (by simp) (by simp), count_handlers (by simp) (by simp),
        count_subroutines (by simp), List.count_eq_zero.mpr hl]
      simp
  | javamethodBegin | exceptionHandlers | functionReturn =>
    exact Nat.le_of_eq (count_fixed env m (by simp))

theorem LabelsHold.labels_nodup (h : m.LabelsHold env) (hmade : m.Made array) (hm : m.Of array)
    (hp : Controller.pass0 base text = some array) (hl : 4 * text.length ≤ 2 ^ 32) :
    (Peephole.labelsOf (m.pass2 env)).Nodup := by
  refine JavaMethod.labels_nodup env m ?_ (agains_nodup hm hp hl env) h.handlers
  have hnil : m.againSites env = [] := by
    obtain ⟨hsa, hss⟩ := againSites_subset env m
    refine List.eq_nil_iff_forall_not_mem.mpr fun b hb => ?_
    exact h.sites (hss hb) (List.mem_append_right _ (hsa hb))
  obtain ⟨hsl, hsag⟩ := List.disjoint_append_right.mp h.sites
  rw [hnil, List.append_nil]
  refine (entryPoints_nodup hmade hm hp hl).append ?_ h.entries
  refine (labelled_nodup hm hp hl env).append ?_ ?_
  · exact (sites_nodup hm hp hl env).append (agains_nodup hm hp hl env) hsag
  · exact List.disjoint_append_right.mpr ⟨hsl.symm, labelled_disjoint hm hp hl env⟩

theorem scan_labels : scan.LabelsHold scanEnv where
  targets := by
    intro a ha
    have ht : scan.targets scanEnv = [0x1000] := by decide
    rw [ht] at ha
    cases List.mem_singleton.mp ha
    decide
  entries := by
    intro a ha
    cases ha
  sites := by
    have hs : scan.sites scanEnv = [] := by decide
    intro a ha
    rw [hs] at ha
    cases ha
  handlers := by decide
  jumps := by decide

theorem scan_made : scan.Made scanArray ∧ scan.Of scanArray := by
  have hm : scan.functions = (Function.ofSymbol "f" false scanArray
    (Controller.pass0_attached scanText_pass0) 0 4).toList := rfl
  exact made_of_symbol hm

theorem LeafOf.no_call (h : m.LeafOf base text env) (hi : i ∈ m.insns env) :
    i.isCall = false := by
  obtain ⟨array, hp, hmade, -⟩ := h.array
  have hno : ∀ o ∈ aluOpcodes ++ memoryOpcodes ++ branchOpcodes,
      o ≠ .jal ∧ o ≠ .bgezal ∧ o ≠ .jalr := by decide
  rw [← Bool.not_eq_true]
  intro hc
  have hk : i.kind ≠ .delaySlotNop := by
    intro hk
    rw [Instruction.isCall, hk] at hc
    cases hc
  obtain ⟨hj, hb, hr⟩ := hno _ (h.plain i hi hk)
  rcases hmade.insn hp hi with ⟨a, word, hcr⟩ | hk' | hk' | ⟨a, extra, rfl⟩
  · obtain ⟨h₁, h₂, h₃⟩ := create_call hcr
    cases hkind : i.kind with
    | jal => exact (h₁ hkind).elim hj hb
    | jalr => exact hr (h₂ hkind)
    | jalReturn => exact h₃ hkind
    | _ =>
      rw [Instruction.isCall, hkind] at hc
      cases hc
  · exact hk hk'
  · rw [Instruction.isCall, hk'] at hc
    cases hc
  · exact hj rfl

/-- The optimizer reads every line of a leaf method as it is. -/
theorem LeafOf.straight (h : m.LeafOf base text env)
    (ho : env.config.optimizePartialMemoryOps = false) : ∀ i ∈ m.pass2 env, i.straight = true := by
  have hlines : Bc.EmittedLines (fun r => (m.pass1 env).regalloc.regIsAllocated r = true) False
      (m.pass2Lines env) := by
    refine pass2Lines_emitted (fun hj => ?_) (fun hf => ?_) (fun i hi hc => ?_) fun i hi => ?_
    · rw [ho] at hj
      cases hj
    · rw [h.fna_unused] at hf
      exact Nat.lt_irrefl 0 hf
    · rw [h.no_call hi] at hc
      cases hc
    · by_cases hz : Reg.zero ∈ i.fillDestinations env
      · rw [h.zero i hi hz]
        exact Bc.emittedLines_nil
      · refine (Instruction.code_emitted (fun hj => ?_) i fun hk => ?_).mono (fun r hr => ?_) id
        · rw [ho] at hj
          cases hj
        · have hs := h.site i hi
          rw [Instruction.isSite, hk, beq_self_eq_true, Bool.or_true] at hs
          cases hs
        · exact counted hi (.inl hr) fun h0 => hz (h0 ▸ hr)
  intro i hi
  obtain ⟨hf, hin | hin | ⟨r, hr, hn⟩⟩ := hlines.lower hi
  · exact Item.straight_of_fits hf hin
  · exact hin.elim
  · rw [RegisterAllocator.regIsAllocated, hn] at hr
    cases hr

theorem LeafOf.labels_nodup (h : m.LeafOf base text env) :
    (Peephole.labelsOf (m.pass2 env)).Nodup := by
  obtain ⟨array, hp, -, hm⟩ := h.array
  have hsites : m.sites env = [] := by
    refine List.map_eq_nil_iff.mpr (List.filter_eq_nil_iff.mpr fun i hi => ?_)
    rw [h.site i hi]
    exact Bool.false_ne_true
  have hagain : m.againSites env = [] := by
    refine List.eq_nil_iff_forall_not_mem.mpr fun a ha => ?_
    have hs := (againSites_subset env m).2 ha
    rw [hsites] at hs
    cases hs
  have hentry : m.entryPoints = [] := by
    rw [entryPoints, h.single]
    rfl
  have hhandlers : m.handlers env = [] := by
    refine List.eq_nil_iff_forall_not_mem.mpr fun x hx => ?_
    obtain ⟨i, hi, hx⟩ := mem_handlers_iff.mp hx
    have hnamed : ∃ a, .addr a ∈ x.named := by
      cases x with
      | exception start stop => exact ⟨stop, by simp [ExceptionHandler.named]⟩
      | setjmp start stop target => exact ⟨target, by simp [ExceptionHandler.named]⟩
    obtain ⟨a, ha⟩ := hnamed
    exact Bool.false_ne_true ((h.site i hi).symm.trans (site_of_handler hx ha).1)
  have hagains := agains_nodup hm hp h.fits env
  refine JavaMethod.labels_nodup env m ?_ hagains (by rw [hhandlers]; exact .nil)
  rw [hentry, hsites, hagain, List.append_nil]
  exact (labelled_nodup hm hp h.fits env).append hagains (labelled_disjoint hm hp h.fits env)

end JavaMethod

end Cibyl
