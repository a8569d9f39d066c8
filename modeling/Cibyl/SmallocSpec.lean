import Cibyl.SmallocRuns

namespace Cibyl
set_option autoImplicit true

open Lanes (Flat)

namespace Smalloc

/-- The pointers a program holds, with the sizes it asked for. -/
abbrev Live := List (Nat × Nat)

def State.live (s : State) : Live := s.allocated.map (fun n => (n.addr + overhead, n.usize))

/-- What a program does with its memory. -/
inductive Call where
  | malloc (size : Word)
  | free (ptr : Word)
  | realloc (ptr size : Word)
  | store (memory : Flat)

/-- A call gives a pointer, or a null pointer. -/
def Call.run (s : State) : Call → Option (Nat × State)
  | .malloc size => Smalloc.malloc s size
  | .free ptr => (Smalloc.free s ptr).map (fun s => (0, s))
  | .realloc ptr size => Smalloc.realloc s ptr size
  | .store memory => some (0, { s with memory := memory })

def runCalls (s : State) : List Call → Option (List Nat × State)
  | [] => some ([], s)
  | c :: cs => do
    let (r, s) ← c.run s
    let (rs, s) ← runCalls s cs
    return (r :: rs, s)

/-- The range of `size` bytes lies in the pool, with a header between it and the others. -/
structure Fresh (p : Pool) (live : Live) (ptr size : Nat) : Prop where
  start : p.start + overhead ≤ ptr
  stop : ptr + size ≤ p.stop
  apart : ∀ x ∈ live, ptr + size + overhead ≤ x.1 ∨ x.1 + x.2 + overhead ≤ ptr

def Live.without (live : Live) (ptr : Nat) : Live := live.filter (fun x => x.1 ≠ ptr)

/-- What an allocator may do. -/
inductive Spec (p : Pool) (live : Live) : Call → Nat → Live → Prop where
  | malloc (h : Fresh p live ptr size.toNat) (hl : live'.Perm ((ptr, size.toNat) :: live)) :
    Spec p live (.malloc size) ptr live'
  | noMalloc (size : Word) : Spec p live (.malloc size) 0 live
  | free (ptr : Word) : Spec p live (.free ptr) 0 (Live.without live ptr.toNat)
  | realloc (h : Fresh p live out size.toNat)
    (hl : live'.Perm (Live.without ((out, size.toNat) :: live) ptr.toNat)) :
    Spec p live (.realloc ptr size) out live'
  | noRealloc (ptr size : Word) : Spec p live (.realloc ptr size) 0 live
  | store (memory : Flat) : Spec p live (.store memory) 0 live

/-- What an allocator may answer to a sequence of calls. -/
inductive SpecRun (p : Pool) : Live → List Call → List Nat → Live → Prop where
  | nil (live : Live) : SpecRun p live [] [] live
  | cons (h : Spec p live c r live₁) (hr : SpecRun p live₁ cs rs live₂) :
    SpecRun p live (c :: cs) (r :: rs) live₂

section

variable {p : Pool} {s s' : State} {bs bs' : List Block} {n : Node}

theorem Fills.useds_pairwise (h : Fills start stop bs) :
    (useds bs).Pairwise (fun x y => y.addr + overhead + y.rsize ≤ x.addr) := by
  rw [useds, List.pairwise_map]
  exact List.Pairwise.filter _ h.pairwise

theorem Fills.useds_around (h : Fills start stop bs) (hu : useds bs = A ++ n :: B) :
    (∀ a ∈ A, n.addr + overhead + n.rsize ≤ a.addr) ∧
      ∀ b ∈ B, b.addr + overhead + b.rsize ≤ n.addr := by
  have hpair := h.useds_pairwise
  rw [hu] at hpair
  obtain ⟨-, hnB, hAn⟩ := List.pairwise_append.mp hpair
  exact ⟨fun a ha => hAn a ha n (List.mem_cons_self ..), (List.pairwise_cons.mp hnB).1⟩

theorem Pool.Keeps.live (h : p.Keeps s bs) :
    s.live = (useds bs).map (fun n => (n.addr + overhead, n.usize)) := by
  rw [State.live, h.allocated]

theorem Pool.Keeps.used_bounds (h : p.Keeps s bs) (hn : n ∈ useds bs) :
    p.start ≤ n.addr ∧ n.addr + overhead + n.rsize ≤ p.stop ∧ n.usize ≤ n.rsize := by
  obtain ⟨x, hx, -, rfl⟩ := mem_useds.mp hn
  obtain ⟨h₁, h₂⟩ := h.fills.bounds hx
  exact ⟨h₁, h₂, h.room _ hn⟩

/-- A block that is handed out is fresh. -/
theorem Hands.fresh (hk : p.Keeps s bs) (hk' : p.Keeps s' bs') (h : Hands bs size n bs') :
    Fresh p s.live (n.addr + overhead) size := by
  obtain ⟨A, B, hu, hu'⟩ := h.useds
  have hn : n ∈ Smalloc.useds bs' := hu' ▸ List.mem_append_right _ (List.mem_cons_self ..)
  obtain ⟨h₁, h₂, h₃⟩ := hk'.used_bounds hn
  rw [h.usize] at h₃
  obtain ⟨hA, hB⟩ := hk'.fills.useds_around hu'
  have hover : overhead = 12 := rfl
  refine ⟨by omega, by omega, fun x hx => ?_⟩
  rw [hk.live, hu] at hx
  obtain ⟨m, hm, rfl⟩ := List.mem_map.mp hx
  have hmr := hk.room m (hu ▸ hm)
  dsimp only
  rcases List.mem_append.mp hm with hm | hm
  · have ha := hA m hm
    omega
  · have hb := hB m hm
    omega

theorem Hands.live (hk : p.Keeps s bs) (hk' : p.Keeps s' bs') (h : Hands bs size n bs') :
    s'.live.Perm ((n.addr + overhead, size) :: s.live) := by
  obtain ⟨A, B, hu, hu'⟩ := h.useds
  rw [hk.live, hk'.live, hu, hu', List.map_append, List.map_append, List.map_cons, h.usize]
  exact List.perm_middle

theorem Pool.Keeps.without_none (h : p.Keeps s bs)
    (hn : ∀ n ∈ useds bs, n.addr + overhead ≠ ptr) : Live.without s.live ptr = s.live := by
  rw [h.live]
  refine List.filter_eq_self.mpr fun x hx => ?_
  obtain ⟨n, hm, rfl⟩ := List.mem_map.mp hx
  exact decide_eq_true (hn n hm)

theorem Pool.Keeps.without (hk : p.Keeps s bs) (hk' : p.Keeps s' bs')
    (hp : n.addr + overhead = ptr) (hu : useds bs = A ++ n :: B) (hu' : useds bs' = A ++ B) :
    Live.without s.live ptr = s'.live := by
  obtain ⟨hA, hB⟩ := hk.fills.useds_around hu
  have hover : overhead = 12 := rfl
  have hself (l : List Node) (h : ∀ m ∈ l, m.addr + overhead ≠ ptr) :
      (l.map (fun n => (n.addr + overhead, n.usize))).filter (fun x => x.1 ≠ ptr) =
        l.map (fun n => (n.addr + overhead, n.usize)) := by
    refine List.filter_eq_self.mpr fun x hx => ?_
    obtain ⟨m, hm, rfl⟩ := List.mem_map.mp hx
    exact decide_eq_true (h m hm)
  have hAp : ∀ m ∈ A, m.addr + overhead ≠ ptr := by
    intro m hm
    have ha := hA m hm
    omega
  have hBp : ∀ m ∈ B, m.addr + overhead ≠ ptr := by
    intro m hm
    have hb := hB m hm
    omega
  rw [hk.live, hk'.live, hu, hu', Live.without, List.map_append, List.map_append, List.map_cons,
    List.filter_append, List.filter_cons_of_neg, hself A hAp, hself B hBp]
  simp [hp]

/-- The blocks of the pool do not depend on what else is in the memory. -/
theorem Pool.Keeps.store (h : p.Keeps s bs) (f : Flat) : p.Keeps { s with memory := f } bs :=
  ⟨h.fills, h.apart, h.available, h.allocated, h.room, h.total⟩

theorem free_spec (h : p.Keeps s bs) (ptr : Word) : ∃ s' bs', free s ptr = some s' ∧
    p.Keeps s' bs' ∧ s'.live = Live.without s.live ptr.toNat ∧ s'.memory = s.memory := by
  rcases free_keeps h ptr with ⟨hf, hn⟩ | ⟨n, s', bs', A, B, hf, hk', hp, hu, hu', hm⟩
  · exact ⟨s, bs, hf, h, (h.without_none hn).symm, rfl⟩
  · exact ⟨s', bs', hf, hk', (h.without hk' hp hu hu').symm, hm⟩

/-- The steps of `realloc`. -/
theorem realloc_keeps (h : p.Keeps s bs) (ptr size : Word) :
    (realloc s ptr size = some (0, s) ∧ ∀ n ∈ frees bs, n.rsize < size.toNat) ∨
      ∃ n s₁ bs₁ s' bs', malloc s size = some (n.addr + overhead, s₁) ∧ p.Keeps s₁ bs₁ ∧
        Hands bs size.toNat n bs₁ ∧ realloc s ptr size = some (n.addr + overhead, s') ∧
        p.Keeps s' bs' ∧ s'.live = Live.without s₁.live ptr.toNat ∧
        s'.memory = if ptr = 0 then s.memory
          else (Libc.memcpy (n.addr + overhead) ptr.toNat size.toNat s.memory).2 := by
  rcases malloc_keeps h size with ⟨hm, hsmall⟩ | ⟨n, s₁, bs₁, hm, hk₁, hh, hmem⟩
  · refine .inl ⟨?_, hsmall⟩
    simp [realloc, hm]
  · right
    have hout : n.addr + overhead ≠ 0 := Nat.succ_ne_zero _
    by_cases hp : ptr = 0
    · refine ⟨n, s₁, bs₁, s₁, bs₁, hm, hk₁, hh, ?_, hk₁, ?_, ?_⟩
      · rw [realloc, hm, Option.bind_eq_bind, Option.bind_some]
        dsimp only
        rw [if_neg hout, if_pos hp]
        rfl
      · refine (hk₁.without_none fun m _ hmp => ?_).symm
        rw [hp] at hmp
        exact absurd hmp (Nat.succ_ne_zero _)
      · rw [if_pos hp, hmem]
    · let f := (Libc.memcpy (n.addr + overhead) ptr.toNat size.toNat s₁.memory).2
      obtain ⟨s', bs', hf, hk', hl, hmem'⟩ := free_spec (hk₁.store f) ptr
      refine ⟨n, s₁, bs₁, s', bs', hm, hk₁, hh, ?_, hk', hl, ?_⟩
      · rw [realloc, hm, Option.bind_eq_bind, Option.bind_some]
        dsimp only
        rw [if_neg hout, if_neg hp, hf]
        rfl
      · rw [if_neg hp, hmem', ← hmem]

/-- A call does what an allocator may do, and the blocks still fill the pool. -/
theorem Call.spec (h : p.Keeps s bs) (c : Call) : ∃ r s' bs', c.run s = some (r, s') ∧
    p.Keeps s' bs' ∧ Spec p s.live c r s'.live := by
  cases c with
  | malloc size =>
    rcases malloc_keeps h size with ⟨hm, -⟩ | ⟨n, s', bs', hm, hk', hh, -⟩
    · exact ⟨0, s, bs, hm, h, .noMalloc size⟩
    · exact ⟨_, s', bs', hm, hk', .malloc (hh.fresh h hk') (hh.live h hk')⟩
  | free ptr =>
    obtain ⟨s', bs', hf, hk', hl, -⟩ := free_spec h ptr
    refine ⟨0, s', bs', ?_, hk', hl ▸ .free ptr⟩
    rw [run, hf, Option.map_some]
  | realloc ptr size =>
    rcases realloc_keeps h ptr size with ⟨hr, -⟩ |
      ⟨n, s₁, bs₁, s', bs', -, hk₁, hh, hr, hk', hl, -⟩
    · exact ⟨0, s, bs, hr, h, .noRealloc ptr size⟩
    · refine ⟨_, s', bs', hr, hk', .realloc (hh.fresh h hk₁) ?_⟩
      rw [hl]
      exact (hh.live h hk₁).filter _
  | store memory => exact ⟨0, _, bs, rfl, h.store memory, .store memory⟩

theorem runCalls_keeps (h : p.Keeps s bs) (cs : List Call) : ∃ rs s' bs',
    runCalls s cs = some (rs, s') ∧ p.Keeps s' bs' ∧ SpecRun p s.live cs rs s'.live := by
  induction cs generalizing s bs with
  | nil => exact ⟨[], s, bs, rfl, h, .nil _⟩
  | cons c cs ih =>
    obtain ⟨r, s₁, bs₁, hc, hk₁, hspec⟩ := Call.spec h c
    obtain ⟨rs, s', bs', hcs, hk', hrun⟩ := ih hk₁
    refine ⟨r :: rs, s', bs', ?_, hk', .cons hspec hrun⟩
    rw [runCalls, hc, Option.bind_eq_bind, Option.bind_some]
    dsimp only
    rw [hcs]
    rfl

theorem setMemoryPool_keeps (p : Pool) (f : Flat) : p.Keeps (setMemoryPool p.start p.stop f)
    [⟨⟨p.start, p.stop - p.start - overhead, 0⟩, true⟩] := by
  have hfits := p.fits
  have hlt := p.lt
  have hover : overhead = 12 := rfl
  have hsize : sub32 (sub32 p.stop p.start) overhead = p.stop - p.start - overhead := by
    rw [sub32, sub32, u32, u32]
    omega
  have hhi : Block.hi ⟨⟨p.start, p.stop - p.start - overhead, 0⟩, true⟩ = p.stop := by
    rw [Block.hi]
    dsimp only
    omega
  refine ⟨Tiles.cons_iff.mpr ⟨hhi, Block.lo_lt_hi _, .nil _⟩, List.isChain_singleton _, ?_, rfl,
    (fun n hn => by cases hn), rfl⟩
  rw [setMemoryPool, hsize]
  rfl

end

end Smalloc

end Cibyl
