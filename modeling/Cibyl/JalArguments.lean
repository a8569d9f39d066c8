import Cibyl.JalReturn

namespace Cibyl
set_option autoImplicit true

open Jvm (Item Op Value Frame Runtime World Live FrameRel OutcomeRel Rewrite SameRuns exec setLocal)

namespace Jvm

/-- The operation pushes a value that depends on no local below `k`. -/
inductive Op.PushesFrom (k : Nat) : Op → Prop where
  | iconst (n : Int) : PushesFrom k (.iconst n)
  | bipush (n : Int) : PushesFrom k (.bipush n)
  | sipush (n : Int) : PushesFrom k (.sipush n)
  | ldc (n : Int) : PushesFrom k (.ldc n)
  | iload (h : k ≤ n) : PushesFrom k (.iload n)
  | aload (h : k ≤ n) : PushesFrom k (.aload n)

/-- What the operation pushes with the locals `l`. -/
def Op.Pushes (o : Op) (l : Nat → Value) (v : Value) : Prop :=
  ∀ (σ : Type) (rt : Runtime σ) (s : List Value) (w : World σ),
    o.exec rt ⟨s, l, w⟩ = .ok ⟨v :: s, l, w⟩

/-- A value is pushed and stored in an argument local. -/
structure Move (k : Nat) where
  push : Op
  store : Op
  reg : Nat
  pushes : push.PushesFrom k
  stores : store.Stores reg
  lt : reg < k

namespace Move

variable {k : Nat}

def items (m : Move k) : List Item := [.op m.push, .op m.store]

/-- The loads of the arguments with the values pushed in their places. -/
def into (ms : List (Move k)) (loads : List Op) : List Op :=
  ms.foldl (fun ls m => ls.set m.reg m.push) loads

end Move

/-- The operation loads the local. -/
def Op.Loads (o : Op) (n : Nat) : Prop := o = .iload n ∨ o = .aload n

section

variable {k : Nat} {l l' : Nat → Value}

theorem Op.Loads.writes {o : Op} (h : o.Loads n) : o.writes = none := by
  rcases h with rfl | rfl <;> rfl

theorem Op.Loads.reads {o : Op} (h : o.Loads n) : o.reads = [n] := by
  rcases h with rfl | rfl <;> rfl

theorem Op.Loads.pushes_or {o : Op} (h : o.Loads n) (l : Nat → Value) :
    (o.Pushes l (l n) ∧ (l n).ty ≠ .ret) ∨
      ∀ (σ : Type) (rt : Runtime σ) s w, o.exec rt ⟨s, l, w⟩ = .stuck := by
  rcases h with rfl | rfl
  · cases hv : l n with
    | int x => exact .inl ⟨fun σ rt s w => exec_iload rt s l w hv, fun h => by cases h⟩
    | _ => exact .inr fun σ rt s w => by simp only [Op.exec, hv]
  · cases hv : l n with
    | ref r => exact .inl ⟨fun σ rt s w => exec_aload rt s l w hv, fun h => by cases h⟩
    | _ => exact .inr fun σ rt s w => by simp only [Op.exec, hv]

theorem Op.PushesFrom.pushes_or {o : Op} (h : o.PushesFrom k) (l : Nat → Value) :
    (∃ v, o.Pushes l v ∧ v.ty ≠ .ret) ∨
      ∀ (σ : Type) (rt : Runtime σ) s w, o.exec rt ⟨s, l, w⟩ = .stuck := by
  cases h with
  | @iload n => exact (Op.Loads.pushes_or (.inl rfl) l).imp_left fun h => ⟨l n, h⟩
  | @aload n => exact (Op.Loads.pushes_or (.inr rfl) l).imp_left fun h => ⟨l n, h⟩
  | _ => exact .inl ⟨_, fun σ rt s w => rfl, nofun⟩

theorem Op.Pushes.unique {o : Op} (h : o.Pushes l v) (h' : o.Pushes l v') : v = v' := by
  have he := (h Unit Runtime.absent [] ⟨⟨[], by decide⟩, 0, ()⟩).symm.trans
    (h' Unit Runtime.absent [] ⟨⟨[], by decide⟩, 0, ()⟩)
  injection he with he
  injection he with he
  injection he

theorem Op.Pushes.not_stuck {o : Op} (h : o.Pushes l v) :
    ¬ ∀ (σ : Type) (rt : Runtime σ) s w, o.exec rt ⟨s, l, w⟩ = .stuck := fun hs =>
  nomatch (h Unit Runtime.absent [] ⟨⟨[], by decide⟩, 0, ()⟩).symm.trans (hs ..)

/-- A load pushes what its local holds. -/
theorem Op.Loads.pushes {o : Op} (h : o.Loads n) (hv : o.Pushes l v) :
    v = l n ∧ v.ty ≠ .ret ∧ ∀ l', l' n = l n → o.Pushes l' v := by
  rcases h with rfl | rfl
  · cases hl : l n with
    | int x =>
      have he := hv.unique fun σ rt s w => exec_iload rt s l w hl
      subst he
      exact ⟨rfl, (fun h => by cases h), fun l' hl' σ rt s w => exec_iload rt s l' w hl'⟩
    | _ => exact absurd (fun σ rt s w => by simp only [Op.exec, hl]) hv.not_stuck
  · cases hl : l n with
    | ref r =>
      have he := hv.unique fun σ rt s w => exec_aload rt s l w hl
      subst he
      exact ⟨rfl, (fun h => by cases h), fun l' hl' σ rt s w => exec_aload rt s l' w hl'⟩
    | _ => exact absurd (fun σ rt s w => by simp only [Op.exec, hl]) hv.not_stuck

theorem Op.PushesFrom.pushes_same {o : Op} (h : o.PushesFrom k) (hv : o.Pushes l v)
    (hl : ∀ n ∈ o.reads, k ≤ n → l n = v → l' n = v) : o.Pushes l' v := by
  have load {n : Nat} (hn : k ≤ n) (ho : o.Loads n) : o.Pushes l' v := by
    have hp := ho.pushes hv
    refine hp.2.2 l' ?_
    rw [← hp.1]
    exact hl n (by rw [ho.reads]; exact List.mem_singleton_self _) hn hp.1.symm
  cases h with
  | iload hn => exact load hn (.inl rfl)
  | aload hn => exact load hn (.inr rfl)
  | _ =>
    have he := hv.unique fun _ _ _ _ => rfl
    subst he
    exact fun σ rt s w => rfl

/-- The loads of one run push what the operations of another push. -/
def LoadsSame (loads loads' : List Op) (l l' : Nat → Value) : Prop :=
  List.Forall₂ (fun o o' => ∀ v, o.Pushes l v → o'.Pushes l' v) loads loads'

theorem exec_loads {R : List Item → List Item → Prop} (rt : Runtime σ) {loads loads' : List Op}
    (h : LoadsSame loads loads' l l') (hl : ∀ o ∈ loads, ∃ n, o.Loads n) (hs : StackRel R s s')
    (w : World σ) :
    exec rt (loads.map .op) ⟨s, l, w⟩ = .stuck ∨ ∃ t t',
      exec rt (loads.map .op) ⟨s, l, w⟩ = .ok ⟨t, l, w⟩ ∧
      exec rt (loads'.map .op) ⟨s', l', w⟩ = .ok ⟨t', l', w⟩ ∧ StackRel R t t' := by
  induction h generalizing s s' with
  | nil => exact .inr ⟨s, s', rfl, rfl, hs⟩
  | @cons o o' os os' ho _ ih =>
    obtain ⟨n, hn⟩ := hl o (List.mem_cons_self ..)
    rw [List.map_cons, List.map_cons, exec_op, exec_op]
    rcases hn.pushes_or l with ⟨hp, hty⟩ | hstuck
    · rw [hp, ho _ hp, Outcome.bind_ok, Outcome.bind_ok]
      exact ih (fun o h => hl o (List.mem_cons_of_mem _ h)) (.cons (.refl hty) hs)
    · rw [hstuck]
      exact .inl rfl

/-- The same but for the places that the moves are still to fill. -/
structure LoadsBut (ms : List (Move k)) (loads loads' : List Op) (l l' : Nat → Value) : Prop where
  length : loads'.length = loads.length
  same : ∀ r (o o' : Op), loads[r]? = some o → loads'[r]? = some o' → (∀ m ∈ ms, m.reg ≠ r) →
    ∀ v, o.Pushes l v → o'.Pushes l' v

theorem LoadsBut.all {loads loads' : List Op} (h : LoadsBut (k := k) [] loads loads' l l') :
    LoadsSame loads loads' l l' :=
  List.forall₂_iff_get.mpr
    ⟨h.length.symm, fun i hi hi' => h.same i _ _ (List.getElem?_eq_getElem hi)
    (List.getElem?_eq_getElem hi') (List.forall_mem_nil _)⟩

/-- The moves store their values, and the loads with these in their places push the same. -/
theorem exec_moves (rt : Runtime σ) {loads loads' : List Op} {ms : List (Move k)}
    (hl : ∀ r (o : Op), loads[r]? = some o → o.Loads r) (h : LoadsBut ms loads loads' l l')
    (hp : ∀ m ∈ ms, ∀ v, m.push.Pushes l v → m.push.Pushes l' v) (s : List Value) (w : World σ) :
    exec rt (ms.flatMap Move.items) ⟨s, l, w⟩ = .stuck ∨ ∃ l₂,
      exec rt (ms.flatMap Move.items) ⟨s, l, w⟩ = .ok ⟨s, l₂, w⟩ ∧
      (∀ n, (∀ m ∈ ms, m.reg ≠ n) → l₂ n = l n) ∧ LoadsSame loads (Move.into ms loads') l₂ l' := by
  induction ms generalizing l loads' with
  | nil => exact .inr ⟨l, rfl, fun _ _ => rfl, h.all⟩
  | cons m ms ih =>
    rw [List.flatMap_cons, exec_append, Move.items, exec_op]
    rcases m.pushes.pushes_or l with ⟨x, hx, -⟩ | hstuck
    · rw [hx, Outcome.bind_ok, exec_op]
      rcases m.stores.exec_cases rt ⟨x :: s, l, w⟩ with hst | ⟨v, t, hv, -, hst⟩
      · rw [hst]
        exact .inl rfl
      · cases hv
        rw [hst, Outcome.bind_ok]
        have hset : LoadsBut ms loads (loads'.set m.reg m.push) (setLocal l m.reg x) l' := by
          refine ⟨(List.length_set ..).trans h.length, fun r o o' ho ho' hne v hv => ?_⟩
          by_cases hr : m.reg = r
          · subst hr
            rw [List.getElem?_set_self' ] at ho'
            obtain ⟨o₂, -, rfl⟩ := Option.map_eq_some_iff.mp ho'
            rw [((hl _ o ho).pushes hv).1, setLocal_same]
            exact hp m (List.mem_cons_self ..) _ hx
          · rw [List.getElem?_set_ne hr] at ho'
            refine h.same r o o' ho ho' ?_ v ?_
            · exact List.forall_mem_cons.mpr ⟨hr, hne⟩
            · exact ((hl r o ho).pushes hv).2.2 l (setLocal_ne l _ (Ne.symm hr)).symm
        have hp' : ∀ m' ∈ ms, ∀ v, m'.push.Pushes (setLocal l m.reg x) v →
            m'.push.Pushes l' v := by
          intro m' hm' v hv
          refine hp m' (List.mem_cons_of_mem _ hm') v (m'.pushes.pushes_same hv fun n _ hn he => ?_)
          rw [← he]
          exact (setLocal_ne l _ (Nat.ne_of_gt (Nat.lt_of_lt_of_le m.lt hn))).symm
        rcases ih hset hp' with h | ⟨l₂, h₁, h₂, h₃⟩
        · exact .inl h
        · refine .inr ⟨l₂, h₁, fun n hn => ?_, h₃⟩
          rw [h₂ n fun m' hm' => hn m' (List.mem_cons_of_mem _ hm')]
          exact setLocal_ne l _ (hn m (List.mem_cons_self ..)).symm
    · rw [hstuck]
      exact .inl rfl

theorem Op.PushesFrom.writes {o : Op} (h : o.PushesFrom k) : o.writes = none := by
  cases h <;> rfl

theorem Op.PushesFrom.le_reads {o : Op} (h : o.PushesFrom k) : ∀ n ∈ o.reads, k ≤ n := by
  intro n hn
  cases h with
  | iload h | aload h =>
    cases List.mem_singleton.mp hn
    exact h
  | _ => cases hn

theorem moves_write {ms : List (Move k)} (hm : ∀ m ∈ ms, m.reg ≠ n) :
    ∀ i ∈ ms.flatMap Move.items, i.isOp = true ∧ n ∉ i.writes := by
  intro i hi
  obtain ⟨m, hms, hi⟩ := List.mem_flatMap.mp hi
  rcases List.mem_cons.mp hi with rfl | hi
  · refine ⟨rfl, ?_⟩
    rw [Item.writes, m.pushes.writes]
    exact fun h => by cases h
  · cases List.mem_singleton.mp hi
    refine ⟨rfl, ?_⟩
    rw [Item.writes, m.stores.writes]
    exact fun h => hm m hms (Option.some.inj h)

theorem loads_write {loads : List Op} (hl : ∀ o ∈ loads, ∃ r, o.Loads r) (n : Nat) :
    ∀ i ∈ loads.map Item.op, i.isOp = true ∧ n ∉ i.writes := by
  intro i hi
  obtain ⟨o, ho, rfl⟩ := List.mem_map.mp hi
  obtain ⟨r, hr⟩ := hl o ho
  refine ⟨rfl, ?_⟩
  rw [Item.writes, hr.writes]
  exact fun h => by cases h

/-- What a move pushes from is live before all of them. -/
theorem live_push {ms : List (Move k)} {m : Move k} (hm : m ∈ ms) (hn : n ∈ m.push.reads)
    (c : List Item) : Live body n (ms.flatMap Move.items ++ c) := by
  obtain ⟨as, bs, rfl⟩ := List.append_of_mem hm
  rw [List.flatMap_append, List.flatMap_cons, List.append_assoc]
  refine .straight (moves_write fun m' _ => ?_) (.read hn _)
  exact Nat.ne_of_lt (Nat.lt_of_lt_of_le m'.lt (m.pushes.le_reads n hn))

theorem live_load {loads : List Op} (hl : ∀ o ∈ loads, ∃ r, o.Loads r) {o : Op} (ho : o ∈ loads)
    (h : o.Loads n) (c : List Item) : Live body n (loads.map .op ++ c) := by
  obtain ⟨as, bs, rfl⟩ := List.append_of_mem ho
  rw [List.map_append, List.map_cons, List.append_assoc]
  refine .straight (loads_write (fun o ho => hl o (List.mem_append_left _ ho)) n) (.read ?_ _)
  rw [Item.reads, h.reads]
  exact List.mem_singleton_self _

/-- The arguments reach the call in both runs, and the locals that differ are not live behind it. -/
theorem exec_into {R : List Item → List Item → Prop} {rt : Runtime σ} (hrt : rt.NoReturnAddresses)
    {ms : List (Move k)} {loads : List Op} {call : Op} {f f' : Frame σ}
    (hl : ∀ r (o : Op), loads[r]? = some o → o.Loads r) (hr : call.reads = [])
    (hw : call.writes = none) (hd : ∀ m ∈ ms, ¬ Live body m.reg c)
    (hf : FrameRel R (fun n => Live body n
      (ms.flatMap Move.items ++ (loads.map .op ++ (.op call :: c)))) f f') :
    OutcomeRel R (fun n => Live body n c)
      (exec rt (ms.flatMap Move.items ++ (loads.map .op ++ [.op call])) f)
      (exec rt ((Move.into ms loads).map .op ++ [.op call]) f') := by
  obtain ⟨s, l, w⟩ := f
  obtain ⟨s', l', w'⟩ := f'
  obtain rfl : w = w' := hf.world
  have hs : StackRel R s s' := hf.stack
  have hlive : ∀ n, Live body n _ → ValRel R (l n) (l' n) := hf.locals
  have hl' : ∀ o ∈ loads, ∃ r, o.Loads r := fun o ho => by
    obtain ⟨r, hr⟩ := List.mem_iff_getElem?.mp ho
    exact ⟨r, hl r o hr⟩
  have hbut : LoadsBut ms loads loads l l' := by
    refine ⟨rfl, fun r o o' ho ho' hne v hv => ?_⟩
    cases ho.symm.trans ho'
    have hp := (hl r o ho).pushes hv
    refine hp.2.2 l' ((hlive r ?_).eq (hp.1 ▸ hp.2.1))
    exact .straight (moves_write hne) (live_load hl' (List.mem_of_getElem? ho) (hl r o ho) _)
  have hpush : ∀ m ∈ ms, ∀ v, m.push.Pushes l v → m.push.Pushes l' v := by
    intro m hm v hv
    refine m.pushes.pushes_same hv fun n hn _ he => ?_
    rw [← he]
    refine (hlive n (live_push hm hn _)).eq ?_
    rw [he]
    rcases m.pushes.pushes_or l with ⟨x, hx, hty⟩ | hs
    · rw [hv.unique hx]
      exact hty
    · exact absurd hs hv.not_stuck
  rw [exec_append, exec_append]
  rcases exec_moves rt hl hbut hpush s w with h | ⟨l₂, h₁, h₂, h₃⟩
  · rw [h]
    exact .stuck _
  rw [h₁, Outcome.bind_ok, exec_append]
  rcases exec_loads rt h₃ hl' hs w with h | ⟨t, t', h₄, h₅, h₆⟩
  · rw [h]
    exact .stuck _
  rw [h₄, h₅, Outcome.bind_ok, Outcome.bind_ok]
  have hfr : FrameRel R (fun n => Live body n c) ⟨t, l₂, w⟩ ⟨t', l', w⟩ := by
    refine ⟨h₆, fun n hn => ?_, rfl⟩
    have hne : ∀ m ∈ ms, m.reg ≠ n := fun m hm he => hd m hm (he ▸ hn)
    dsimp only
    rw [h₂ n hne]
    refine hlive n (.straight (moves_write hne) (.straight (loads_write hl' n) ?_))
    exact .step (by rw [Item.writes, hw]; exact fun h => by cases h) (.next rfl _) hn
  refine ((Op.exec_rel hrt hfr fun n hn => ?_).mono fun n hn => .inl hn).bind fun g g' hg => .ok hg
  rw [hr] at hn
  cases hn

end

end Jvm

open Jvm (Move)

namespace Peephole

/-- The pushes and stores at the start of the items. -/
def pairs : List Piece → List (Piece × Piece)
  | a :: b :: ps => (a, b) :: pairs ps
  | _ => []

/-- The loop of `match` over the pairs. `int` has no value for the name of a static. -/
def checkPairs (k : Nat) : List (Piece × Piece) → Except PyError Bool
  | [] => .ok true
  | (a, b) :: ps =>
    match a.sourceLocal, b.targetLocal with
    | some .saved_v1, _ => .error .valueError
    | some (.local_ m), some (.local_ reg) =>
      if m < k then .ok false else if k ≤ reg then .ok false else checkPairs k ps
    | none, some (.local_ reg) => if k ≤ reg then .ok false else checkPairs k ps
    | some (.local_ m), _ => if m < k then .ok false else .error .valueError
    | none, _ => .error .valueError

/-- The push takes the place of the load of the register it is stored in. -/
def place (rest : List Piece) (p : Piece × Piece) : List Piece :=
  match p.2.targetLocal with
  | some (.local_ reg) => rest.set reg p.1
  | _ => rest

/-- `MatchBase(n)` for five loads, and `MatchBase2(n)` for four. -/
def jalArguments (k n : Nat) : Template Piece Class where
  classes := (List.replicate n [.pushInstruction, .istore]).flatten ++
    (List.replicate k .iload ++ [.invokestatic])
  accepts _ items :=
    if ((items.drop (2 * n)).take k).map Piece.sourceLocal =
      (List.range k).map (fun i => some (.local_ i)) then checkPairs k (pairs (items.take (2 * n)))
    else .ok false
  execute _ items := .ok (List.replicate (2 * n) .nop ++
    (pairs (items.take (2 * n))).foldl place (items.drop (2 * n)))

/-- The window is left at its end only, the pushes are of numbers or locals, and no path behind the
call reads a local whose store goes. -/
structure JalArgumentsStays (n : Nat) (pre win post : List Piece) : Prop where
  ops : ∀ i ∈ emit win, i.isOp = true
  handlers : ∀ p ∈ pre ++ (win ++ post), p.isCatch = false
  pushes : ∀ p ∈ pairs ((win.filter (fun p => !p.isNop)).take (2 * n)),
    (∃ v o, p.1 = .const v o) ∨ ∃ m, p.1 = .iload m ∨ p.1 = .aload m
  dead : ∀ p ∈ pairs ((win.filter (fun p => !p.isNop)).take (2 * n)), ∀ r,
    p.2.targetLocal = some (.local_ r) → ¬ Live (emit (pre ++ (win ++ post))) r (emit post)

/-- The items are written as these operations. -/
def WrittenAs : List Piece → List Op → Prop := List.Forall₂ (fun p o => p.items = [.op o])

theorem WrittenAs.emit (h : WrittenAs ps os) : emit ps = os.map .op := by
  induction h with
  | nil => rfl
  | cons hp _ ih => rw [emit_cons, hp, ih]; rfl

theorem WrittenAs.set (h : WrittenAs ps os) (hp : p.items = [.op o]) (i : Nat) :
    WrittenAs (ps.set i p) (os.set i o) := by
  induction h generalizing i with
  | nil => exact .nil
  | cons hq hs ih =>
    cases i with
    | zero => exact .cons hp hs
    | succ i => exact .cons hq (ih i)

theorem checkPairs_const {a b : Piece} (ha : a.sourceLocal = none)
    (hb : b.targetLocal = some (.local_ reg)) (ps : List (Piece × Piece)) :
    checkPairs k ((a, b) :: ps) = if k ≤ reg then .ok false else checkPairs k ps := by
  rw [checkPairs]
  simp only [ha, hb]

theorem checkPairs_load {a b : Piece} (ha : a.sourceLocal = some (.local_ m))
    (hb : b.targetLocal = some (.local_ reg)) (ps : List (Piece × Piece)) :
    checkPairs k ((a, b) :: ps) =
      if m < k then .ok false else if k ≤ reg then .ok false else checkPairs k ps := by
  rw [checkPairs]
  simp only [ha, hb]

/-- What a pair that is checked moves. -/
theorem move_of_pair {a b : Piece} (hwf : a.Wf) (hb : b.isInstance .istore = true)
    (ha : (∃ v o, a = .const v o) ∨ ∃ m, a = .iload m ∨ a = .aload m) (ps : List (Piece × Piece)) :
    checkPairs k ((a, b) :: ps) = .ok false ∨ ∃ m : Move k,
      checkPairs k ((a, b) :: ps) = checkPairs k ps ∧ a.items = [.op m.push] ∧
      b.items = [.op m.store] ∧ b.targetLocal = some (.local_ m.reg) := by
  obtain ⟨o, reg, hi, ht, hs⟩ := stores_of_istore hb
  have load {n : Nat} {c : Op} (ha : a.sourceLocal = some (.local_ n)) (hi' : a.items = [.op c])
      (hc : k ≤ n → c.PushesFrom k) : checkPairs k ((a, b) :: ps) = .ok false ∨ ∃ m : Move k,
        checkPairs k ((a, b) :: ps) = checkPairs k ps ∧ a.items = [.op m.push] ∧
        b.items = [.op m.store] ∧ b.targetLocal = some (.local_ m.reg) := by
    rw [checkPairs_load ha ht]
    split
    · exact .inl rfl
    · next hn =>
      split
      · exact .inl rfl
      · next hr =>
        exact .inr ⟨⟨c, o, reg, hc (Nat.le_of_not_lt hn), hs, Nat.lt_of_not_le hr⟩,
          rfl, hi', hi, ht⟩
  rcases ha with ⟨v, c, rfl⟩ | ⟨n, rfl | rfl⟩
  · rw [checkPairs_const rfl ht]
    split
    · exact .inl rfl
    · next hr =>
      have hc := hwf.consts v c rfl
      have hp : c.PushesFrom k := by
        cases c with
        | iconst n => exact .iconst n
        | bipush n => exact .bipush n
        | sipush n => exact .sipush n
        | ldc n => exact .ldc n
        | _ => exact absurd hc Bool.noConfusion
      exact .inr ⟨⟨c, o, reg, hp, hs, Nat.lt_of_not_le hr⟩, rfl, rfl, hi, ht⟩
  · exact load rfl rfl .iload
  · exact load rfl rfl .aload

/-- Checking the pairs raises no error, and pairs that pass are moves. -/
theorem moves_of_pairs {n : Nat} {ps : List Piece} (hP : List.Forall₂ (fun c (p : Piece) =>
      p.isInstance c = true) (List.replicate n [.pushInstruction, .istore]).flatten ps)
    (hwf : ∀ p ∈ ps, p.Wf)
    (hp : ∀ p ∈ pairs ps, (∃ v o, p.1 = .const v o) ∨ ∃ m, p.1 = .iload m ∨ p.1 = .aload m)
    (k : Nat) :
    checkPairs k (pairs ps) = .ok false ∨ checkPairs k (pairs ps) = .ok true ∧
      ∃ ms : List (Move k), emit ps = ms.flatMap Move.items ∧
        (∀ m ∈ ms, ∃ p ∈ pairs ps, p.2.targetLocal = some (.local_ m.reg)) ∧
        ∀ rest os call, WrittenAs rest (os ++ [call]) → os.length = k →
          WrittenAs ((pairs ps).foldl place rest) (Move.into ms os ++ [call]) := by
  induction n generalizing ps with
  | zero =>
    cases hP
    exact .inr ⟨rfl, [], rfl, List.forall_mem_nil _, fun rest os call h _ => h⟩
  | succ n ih =>
    rw [List.replicate_succ, List.flatten_cons] at hP
    obtain ⟨ab, qs, rfl, hab, hq⟩ := forall₂_split hP
    obtain _ | @⟨_, a, _, _, ha, _ | @⟨_, b, _, _, hb, ⟨⟩⟩⟩ := hab
    have hp' := List.forall_mem_cons.mp hp
    rcases move_of_pair (k := k) (hwf a (List.mem_cons_self ..)) hb hp'.1 (pairs qs) with
      h | ⟨m, hm, hai, hbi, ht⟩
    · exact .inl h
    rcases ih hq (fun p h => hwf p (List.mem_cons_of_mem _ (List.mem_cons_of_mem _ h))) hp'.2 with
      h | ⟨h, ms, hms, hd, hw⟩
    · exact .inl (hm.trans h)
    refine .inr ⟨hm.trans h, m :: ms, ?_, ?_, fun rest os call hr hl => ?_⟩
    · rw [emit_append, emit_cons, emit_cons, hai, hbi, hms]
      rfl
    · intro m' hm'
      rcases List.mem_cons.mp hm' with rfl | hm'
      · exact ⟨(a, b), List.mem_cons_self .., ht⟩
      · obtain ⟨p, hp, hpt⟩ := hd m' hm'
        exact ⟨p, List.mem_cons_of_mem _ hp, hpt⟩
    · have hset := hr.set hai m.reg
      rw [List.set_append_left _ _ (hl.symm ▸ m.lt)] at hset
      have h := hw _ _ call hset ((List.length_set ..).trans hl)
      have hplace : place rest (a, b) = rest.set m.reg a := by
        rw [place, ht]
      change WrittenAs ((pairs qs).foldl place (place rest (a, b))) _
      rw [hplace]
      exact h

theorem length_pairs (n : Nat) :
    (List.replicate n [Class.pushInstruction, .istore]).flatten.length = 2 * n := by
  induction n with
  | zero => rfl
  | succ n ih =>
    rw [List.replicate_succ, List.flatten_cons, List.length_append, ih]
    exact Nat.add_comm ..

theorem length_places (qs : List (Piece × Piece)) (rest : List Piece) :
    (qs.foldl place rest).length = rest.length := by
  induction qs generalizing rest with
  | nil => rfl
  | cons q qs ih =>
    refine (ih _).trans ?_
    rw [place]
    split
    · exact List.length_set ..
    · rfl

theorem emit_nops (n : Nat) : emit (List.replicate n .nop) = [] := by
  induction n with
  | zero => rfl
  | succ n ih => exact ih

/-- The loads that the template asks for, one for each argument local. -/
theorem loads_of_iload {ls : List Piece} {is : List Nat}
    (hc : List.Forall₂ (fun c (p : Piece) => p.isInstance c = true)
      (List.replicate is.length .iload) ls)
    (hs : ls.map Piece.sourceLocal = is.map (fun i => some (.local_ i))) :
    ∃ os : List Op, WrittenAs ls os ∧ List.Forall₂ (fun i o => Op.Loads o i) is os := by
  induction is generalizing ls with
  | nil =>
    cases hc
    exact ⟨[], .nil, .nil⟩
  | cons i is ih =>
    obtain _ | @⟨_, p, _, ps, hp, hps⟩ := hc
    injection hs with h hs
    obtain ⟨os, hw, hl⟩ := ih hps hs
    rcases Piece.eq_iload hp with ⟨m, rfl | rfl⟩
    · cases h
      exact ⟨.iload i :: os, .cons rfl hw, .cons (.inl rfl) hl⟩
    · cases h
      exact ⟨.aload i :: os, .cons rfl hw, .cons (.inr rfl) hl⟩

/-- A call of `f` by itself for 5. -/
def callFive : List Word := [0x24040005, 0x0c000400, 0, 0x03e00008, 0]

def callFiveArray : List Entry := (Controller.pass0 0x1000 callFive).getD []

theorem callFive_pass0 : Controller.pass0 0x1000 callFive = some callFiveArray := rfl

def callFiveMethod : JavaMethod :=
  ⟨(Function.ofSymbol "f" false callFiveArray (Controller.pass0_attached callFive_pass0) 0
    4).toList, by decide⟩

/-- A call of `f` by itself with the stack pointer from `$fp`, which `f` returns then. -/
def callRestored : List Word := [0x03c0e821, 0x0c000400, 0, 0x03a01021, 0x03e00008, 0]

def callRestoredArray : List Entry := (Controller.pass0 0x1000 callRestored).getD []

theorem callRestored_pass0 : Controller.pass0 0x1000 callRestored = some callRestoredArray := rfl

def callRestoredMethod : JavaMethod :=
  ⟨(Function.ofSymbol "f" false callRestoredArray (Controller.pass0_attached callRestored_pass0) 0
    5).toList, by decide⟩

def startFive : List Item :=
  [.op (.iconst 0), .op (.istore 5), .op (.iconst 0), .op (.istore 6), .op (.iconst 0),
    .op (.istore 7), .label .javamethodBegin]

def startRestored : List Item :=
  [.op (.iconst 0), .op (.istore 5), .op (.iconst 0), .op (.istore 6), .op (.iconst 0),
    .op (.istore 7), .op (.iconst 0), .op (.istore 8), .label .javamethodBegin]

theorem callFive_pass2 : callFiveMethod.pass2 (.single {} callFiveMethod) =
    startFive ++ (([.op (.iconst 5), .op (.istore 1)] ++ callLines) ++
      (resultLines ++ callAfter [])) := by decide +kernel

theorem callRestored_pass2 : callRestoredMethod.pass2 (.single {} callRestoredMethod) =
    startRestored ++ (([.op (.iload 7), .op (.istore 0)] ++ callLines) ++
      (resultLines ++ callAfter [.op (.iload 0), .op (.istore 5)])) := by decide +kernel

/-- The body with the lines `first` for the arguments of the call. -/
def restoredBody (first : List Item) : List Item :=
  startRestored ++ (first ++ (resultLines ++ callAfter [.op (.iload 0), .op (.istore 5)]))

theorem restored_returns : Jvm.Ends nineSeven
    (restoredBody ([.op (.iload 7), .op (.istore 0)] ++ callLines))
    ⟨restoredBody ([.op (.iload 7), .op (.istore 0)] ++ callLines), onesFrame⟩
    (.returned (some (.int 0)) ⟨⟨[], by decide⟩, 9, ()⟩) :=
  Jvm.ends_of_stepFor 40 rfl

theorem restored_drops : Jvm.Ends nineSeven
    (restoredBody ([.op (.iload 7)] ++ callLines.drop 1))
    ⟨restoredBody ([.op (.iload 7)] ++ callLines.drop 1), onesFrame⟩
    (.returned (some (.int 1)) ⟨⟨[], by decide⟩, 9, ()⟩) :=
  Jvm.ends_of_stepFor 40 rfl

end Peephole

end Cibyl
