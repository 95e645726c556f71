import Libcp2p.ThreadPool.Counts

/-!
# What the end of a pool frees

After the last thread has left its loop and the queue is empty, `thpool_destroy` frees the semaphore, the records of as
many threads as were alive when it began (`threads_total`), their array and the pool itself. `FreeInv` says what has
been freed at each place of it, so that nothing is freed twice (`FreeInv.free_ok`).
-/

namespace Libcp2p

variable {J : Type}

/-- The blocks that `thpool_destroy` frees, in order. -/
def poolBlocks (total : Nat) : List PoolBlock := .hasJobs :: ((List.range total).map .thread ++ [.threads, .pool])

/-- How many of them have been freed when the caller is at a place of `thpool_destroy`. -/
def PoolPc.frees (total : Nat) : PoolPc J → Nat
  | .freeThread n => n + 1
  | .freeThreads => total + 1
  | .freePool => total + 2
  | .destroyed => total + 3
  | _ => 0

theorem poolBlocks_nodup (total : Nat) : (poolBlocks total).Nodup := by
  have hthreads : ((List.range total).map PoolBlock.thread).Nodup :=
    List.nodup_range.map fun _ _ h => PoolBlock.thread.inj h
  simp [poolBlocks, List.nodup_append, hthreads]

theorem length_poolBlocks (total : Nat) : (poolBlocks total).length = total + 3 := by
  simp [poolBlocks]

section Places

variable {body : J → List (PoolCall J)} {p next : PoolPc J} {d d' : PoolData J} {total : Int} {block : PoolBlock}

/-- The blocks are freed in order. -/
theorem FreeAccess.block_eq (h : FreeAccess total p block next) :
    (poolBlocks total.toNat)[p.frees total.toNat]? = some block ∧
      next.frees total.toNat = p.frees total.toNat + 1 := by
  cases h with
  | hasJobs => exact ⟨rfl, rfl⟩
  | @thread n h =>
    have hn : n < total.toNat := by omega
    refine ⟨?_, rfl⟩
    simp [poolBlocks, PoolPc.frees, List.getElem?_append_left, hn]
  | threads => exact ⟨by simp [poolBlocks, PoolPc.frees], rfl⟩
  | pool => exact ⟨by simp [poolBlocks, PoolPc.frees], rfl⟩

theorem FreeAccess.clearing_eq (h : FreeAccess total p block next) : p.clearing = true ∧ next.clearing = true := by
  cases h <;> exact ⟨rfl, rfl⟩

theorem FreeAccess.index (h : FreeAccess total p block next) {n : Nat} (hn : next = .freeThread n) :
    n ≤ total.toNat := by
  cases h with
  | hasJobs => cases hn; exact Nat.zero_le _
  | @thread m h =>
    cases hn
    omega
  | threads => cases hn
  | pool => cases hn

theorem PoolGoes.frees_eq (h : PoolGoes p next) (total : Nat) : next.frees total = p.frees total := by
  cases h <;> rfl

/-- An access sets `threads_total` at the begin of `thpool_destroy` only. -/
theorem PoolAccess.total_cases (h : PoolAccess body p d next d') :
    d'.threadsTotal = d.threadsTotal ∧ p ≠ .destroyTotal ∨
    p = .destroyTotal ∧ next = .destroyFlag ∧ d'.threadsTotal = d.numThreadsAlive := by
  cases h with
  | destroyTotal => exact .inr ⟨rfl, rfl, rfl⟩
  | queue h => cases h <;> exact .inl ⟨rfl, nofun⟩
  | free h => cases h <;> exact .inl ⟨rfl, nofun⟩
  | _ => exact .inl ⟨rfl, nofun⟩

/-- An access frees nothing, or the next block. -/
theorem PoolAccess.freed_cases (h : PoolAccess body p d next d')
    (hindex : ∀ n, p = .freeThread n → n ≤ d.threadsTotal.toNat) :
    (d'.freed = d.freed ∧ next.frees d.threadsTotal.toNat = p.frees d.threadsTotal.toNat ∧
      ∀ n, next ≠ .freeThread n) ∨
    ∃ block, FreeAccess d.threadsTotal p block next ∧ d' = { d with freed := d.freed ++ [block] } := by
  cases h with
  | free h => exact .inr ⟨_, h, rfl⟩
  | queue h => cases h <;> exact .inl ⟨rfl, rfl, nofun⟩
  | @threadsFreed d n hle =>
    have hn := hindex n rfl
    refine .inl ⟨rfl, ?_, nofun⟩
    show d.threadsTotal.toNat + 1 = n + 1
    omega
  | _ => exact .inl ⟨rfl, rfl, nofun⟩

/-- What a caller at a place of `thpool_destroy` has freed. -/
structure PoolData.Frees (d : PoolData J) (p : PoolPc J) : Prop where
  total : p.destroying = true → p = .destroyTotal ∨ 0 ≤ d.threadsTotal ∧ d.threadsTotal ≤ d.numThreads
  index : ∀ n, p = .freeThread n → n ≤ d.threadsTotal.toNat
  freed : p.clearing = true → d.freed = (poolBlocks d.threadsTotal.toNat).take (p.frees d.threadsTotal.toNat)

theorem PoolData.Frees.of_not_destroying (h : p.destroying = false) : d.Frees p where
  total hp := absurd (h.symm.trans hp) Bool.false_ne_true
  index n hn := by
    subst hn
    cases h
  freed hp := absurd (h.symm.trans (PoolPc.clearing_destroying hp)) Bool.false_ne_true

theorem PoolData.Frees.congr (h : d.Frees p) (htotal : d'.threadsTotal = d.threadsTotal)
    (hnum : d'.numThreads = d.numThreads) (hfreed : d'.freed = d.freed) : d'.Frees p where
  total hp := by
    rw [htotal, hnum]
    exact h.total hp
  index n hn := by
    rw [htotal]
    exact h.index n hn
  freed hp := by
    rw [hfreed, htotal]
    exact h.freed hp

theorem PoolData.Frees.goes (h : d.Frees p) (hg : PoolGoes p next) : d.Frees next where
  total hn := by
    rcases h.total (hg.destroying_eq ▸ hn) with rfl | hle
    · cases hg
    · exact .inr hle
  index n hn := by
    subst hn
    cases hg
  freed hn := by
    rw [hg.frees_eq]
    exact h.freed (hg.clearing_eq ▸ hn)

theorem PoolData.Frees.access (h : d.Frees p) (ha : PoolAccess body p d next d')
    (halive : 0 ≤ d.numThreadsAlive ∧ d.numThreadsAlive ≤ d.numThreads)
    (hunfreed : p = .destroyPoll → d.freed = []) : d'.Frees next := by
  rcases ha.total_cases with ⟨htotal, hp⟩ | ⟨hp, rfl, htotal⟩
  · rcases ha.freed_cases h.index with ⟨hfreed, hfrees, hindex⟩ | ⟨block, hb, rfl⟩
    · refine ⟨fun hn => ?_, fun n hn => absurd hn (hindex n), fun hn => ?_⟩
      · rcases ha.destroying_cases with heq | ⟨-, hnext, -⟩
        · rw [htotal, ha.numThreads_eq]
          exact .inr ((h.total (heq ▸ hn)).resolve_left hp)
        · exact .inl hnext
      · rw [hfreed, htotal, hfrees]
        rcases ha.clearing_cases with heq | ⟨rfl, -⟩
        · exact h.freed (heq ▸ hn)
        · exact hunfreed rfl
    · obtain ⟨hget, hnext⟩ := hb.block_eq
      refine ⟨fun hn => .inr ?_, fun n hn => hb.index hn, fun _ => ?_⟩
      · exact (h.total (PoolPc.clearing_destroying hb.clearing_eq.1)).resolve_left hp
      · show d.freed ++ [block] = _
        rw [h.freed hb.clearing_eq.1, hnext, List.take_add_one, hget]
        rfl
  · refine ⟨fun _ => .inr ?_, nofun, nofun⟩
    rw [htotal, ha.numThreads_eq]
    exact halive

end Places

section Inv

variable {ι κ : Type} [Fintype ι] [Fintype κ]

/-- What `thpool_destroy` has freed. -/
structure FreeInv (d : PoolData J) (pcs : ι ⊕ κ → PoolPc J) : Prop where
  frees : ∀ t, d.Frees (pcs t)
  unfreed : (∀ t, (pcs t).clearing = false) → d.freed = []

variable {body : J → List (PoolCall J)} {failed : Nat} {d d' : PoolData J} {pcs : ι ⊕ κ → PoolPc J} {t u : ι ⊕ κ}
  {next : PoolPc J}

/-- The threads alive are not more than were asked for. -/
theorem CountInv.alive_le (h : CountInv failed d pcs) : 0 ≤ d.numThreadsAlive ∧ d.numThreadsAlive ≤ d.numThreads := by
  have hcallers : ∀ k, (pcs (.inr k)).alive.toInt = 0 := by
    intro k
    rw [PoolPc.not_alive (h.who_eq (.inr k))]
    rfl
  have hthreads : ∑ i, (pcs (.inl i)).alive.toInt ≤ Fintype.card ι := by
    refine (Finset.sum_le_card_nsmul _ _ 1 fun i _ => ?_).trans ?_
    · cases (pcs (.inl i)).alive <;> decide
    · rw [Finset.card_univ, Int.nsmul_eq_mul, Int.mul_one]
  have halive := h.alive_eq
  refine ⟨halive ▸ tally_toInt_nonneg, ?_⟩
  rw [tally, Fintype.sum_sum_type, Finset.sum_eq_zero fun k _ => hcallers k] at halive
  rw [h.numThreads_eq, halive]
  omega

/-- One caller at most destroys the pool. -/
theorem DestroyInv.unique (h : DestroyInv pcs) (hc : CountInv failed d pcs) (ht : (pcs t).destroying = true)
    (hu : (pcs u).destroying = true) : u = t := by
  by_contra hne
  cases u with
  | inl i => exact absurd (hc.who_eq (.inl i)) (by rw [PoolPc.who_of_destroying hu]; nofun)
  | inr k =>
    rw [h.alone t ht k hne] at hu
    cases hu

omit [Fintype ι] [Fintype κ] in
/-- The next block is one that has not been freed. -/
theorem FreeInv.free_ok (h : FreeInv d pcs) {block : PoolBlock} (hb : FreeAccess d.threadsTotal (pcs t) block next) :
    d.free block = .ok { d with freed := d.freed ++ [block] } := by
  refine PoolData.free_eq_ok.mpr ⟨?_, rfl⟩
  rw [(h.frees t).freed hb.clearing_eq.1]
  obtain ⟨hi, hblock⟩ := List.getElem?_eq_some_iff.mp hb.block_eq.1
  have hnodup := poolBlocks_nodup d.threadsTotal.toNat
  rw [← List.take_append_drop ((pcs t).frees d.threadsTotal.toNat) (poolBlocks d.threadsTotal.toNat),
    List.nodup_append] at hnodup
  intro hmem
  refine hnodup.2.2 block hmem block ?_ rfl
  rw [List.drop_eq_getElem_cons hi, hblock]
  exact List.mem_cons_self

variable [DecidableEq ι] [DecidableEq κ]

/-- The caller that destroys the pool, alone with it, keeps account of what it has freed. -/
theorem freeInv_preserved : Preserved (T := ι ⊕ κ) (poolCode body) poolHolds
    (fun d pcs _ => DestroyInv pcs ∧ CountInv failed d pcs) FreeInv where
  goes d pcs t next _ h hnext _ := by
    have hg := poolGoes_of_code hnext
    refine ⟨(Function.forall_update_iff pcs fun _ p => d.Frees p).mpr ⟨(h.frees t).goes hg, fun u _ => h.frees u⟩,
      fun hall => h.unfreed fun u => ?_⟩
    have hu := hall u
    by_cases hut : u = t
    · rw [hut, Function.update_self] at hu
      rw [hut, ← hg.clearing_eq, hu]
    · rwa [Function.update_of_ne hut] at hu
  access d pcs t f d' next hok h _ hcode hf := by
    obtain ⟨hd, hc⟩ := hok
    have ha := poolAccess_of_code hcode hf
    -- a thread or caller that does not destroy the pool frees nothing
    have hkeep : (pcs t).destroying = false → d'.threadsTotal = d.threadsTotal ∧ d'.freed = d.freed := by
      intro ht
      constructor
      · rcases ha.total_cases with ⟨htotal, -⟩ | ⟨hp, -, -⟩
        · exact htotal
        · rw [hp] at ht
          cases ht
      · rcases ha.freed_cases (h.frees t).index with ⟨hfreed, -, -⟩ | ⟨block, hb, -⟩
        · exact hfreed
        · exact absurd (ht.symm.trans (PoolPc.clearing_destroying hb.clearing_eq.1)) Bool.false_ne_true
    refine ⟨(Function.forall_update_iff pcs fun _ p => d'.Frees p).mpr
      ⟨(h.frees t).access ha hc.alive_le fun hp => h.unfreed fun u => ?_, fun u hut => ?_⟩, fun hall => ?_⟩
    · cases hu : (pcs u).clearing with
      | false => rfl
      | true =>
        obtain rfl := hd.unique hc (t := t) (by rw [hp]; rfl) (PoolPc.clearing_destroying hu)
        rw [hp] at hu
        cases hu
    · cases hu : (pcs u).destroying with
      | false => exact .of_not_destroying hu
      | true =>
        have ht : (pcs t).destroying = false := by
          cases ht : (pcs t).destroying with
          | false => rfl
          | true => exact absurd (hd.unique hc ht hu) hut
        exact (h.frees u).congr (hkeep ht).1 ha.numThreads_eq (hkeep ht).2
    · have hnot : ∀ u, (pcs u).clearing = false := by
        intro u
        have hu := hall u
        by_cases hut : u = t
        · rw [hut, Function.update_self] at hu
          rw [hut]
          rcases ha.clearing_cases with heq | ⟨hp, -⟩
          · exact heq ▸ hu
          · rw [hp]
            rfl
        · rwa [Function.update_of_ne hut] at hu
      rcases ha.freed_cases (h.frees t).index with ⟨hfreed, -, -⟩ | ⟨block, hb, -⟩
      · rw [hfreed, h.unfreed hnot]
      · exact absurd ((hnot t).symm.trans hb.clearing_eq.1) Bool.false_ne_true

omit [Fintype κ] [DecidableEq ι] in
theorem freeInv_poolInit (failed : Nat) (creator : κ) (callers : κ → PoolCaller J) :
    FreeInv (poolInit ι κ failed creator callers).shared (poolInit ι κ failed creator callers).pc where
  frees t := .of_not_destroying (poolInit_places failed creator callers (fun _ p => p.destroying = false)
    (fun _ => rfl) (fun _ => rfl) (fun _ => rfl) t)
  unfreed _ := rfl

end Inv

end Libcp2p
