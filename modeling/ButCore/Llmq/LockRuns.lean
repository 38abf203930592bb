import ButCore.Llmq.ChainLocks
import ButCore.Validation.Duplicates

/-!
# ChainLocks and the block tree

CLSIGs and headers arrive in any order.
-/
namespace ButCore.Llmq.ChainLocks

open Validation

variable {Sig PubKey : Type}

/-! ### What is locked -/

section

variable {s : ChainState} {node locked : BlockNode} {nHeight : ℤ} {hash : Uint256}

def Counted (node : BlockNode) : Prop := node.index.nHeight = node.ancestors.length

theorem Counted.length_path (h : Counted node) : (node.path.length : ℤ) = node.index.nHeight + 1 := by
  unfold BlockNode.path
  rw [List.length_cons, List.length_map, h, Nat.cast_succ]

theorem getAncestor_self (h : Counted node) :
    getAncestor node node.index.nHeight = some node.hash := by
  have nonneg : ¬ (node.index.nHeight < node.index.nHeight ∨ node.index.nHeight < 0) := by
    rw [h]
    omega
  unfold getAncestor
  rw [if_neg nonneg, sub_self]
  rfl

theorem getAncestor_mem (h : getAncestor node nHeight = some hash) : hash ∈ node.path := by
  unfold getAncestor at h
  split at h
  · cases h
  · exact List.mem_of_getElem? h

theorem getAncestor_le (h : getAncestor node nHeight = some hash) :
    0 ≤ nHeight ∧ nHeight ≤ node.index.nHeight := by
  unfold getAncestor at h
  split at h
  · cases h
  · omega

theorem getAncestor_isSome (counted : Counted node) (lower : 0 ≤ nHeight)
    (upper : nHeight ≤ node.index.nHeight) : ∃ ancestor, getAncestor node nHeight = some ancestor := by
  have inside : (node.index.nHeight - nHeight).toNat < node.path.length := by
    have := counted.length_path
    omega
  refine ⟨node.path[(node.index.nHeight - nHeight).toNat], ?_⟩
  unfold getAncestor
  rw [if_neg (by omega), List.getElem?_eq_getElem inside]

theorem getAncestor_of_suffix (counted : Counted node) (countedLocked : Counted locked)
    (suffix : locked.path <:+ node.path) (upper : nHeight ≤ locked.index.nHeight) :
    getAncestor node nHeight = getAncestor locked nHeight := by
  obtain ⟨above, hpath⟩ := suffix
  have lengths := counted.length_path
  have lengthsLocked := countedLocked.length_path
  rw [← hpath, List.length_append, Nat.cast_add] at lengths
  unfold getAncestor
  by_cases negative : nHeight < 0
  · rw [if_pos (Or.inr negative), if_pos (Or.inr negative)]
  rw [if_neg (by omega), if_neg (by omega), ← hpath]
  have shift : (node.index.nHeight - nHeight).toNat =
      above.length + (locked.index.nHeight - nHeight).toNat := by
    omega
  rw [shift, List.getElem?_append_right (Nat.le_add_right _ _), Nat.add_sub_cancel_left]

end

section

variable {l : Handler Sig} {locked : BlockNode} {nHeight : ℤ} {hash : Uint256}

theorem hasChainLock_iff (enforced : l.isEnforced = true)
    (hlocked : l.bestChainLockBlockIndex = some locked) (counted : Counted locked) :
    l.hasChainLock nHeight hash = true ↔ getAncestor locked nHeight = some hash := by
  unfold Handler.hasChainLock
  simp only [enforced, Bool.not_true, hlocked, Bool.false_eq_true, if_false]
  split
  · next above =>
      refine ⟨fun h => Bool.noConfusion h, fun h => ?_⟩
      exact absurd (getAncestor_le h).2 (not_le.mpr above)
  · split
    · next heq =>
        rw [heq, getAncestor_self counted, decide_eq_true_eq, Option.some.injEq]
        exact eq_comm
    · rw [decide_eq_true_eq]

theorem hasChainLock_locked (h : l.hasChainLock nHeight hash = true) :
    l.isEnforced = true ∧ ∃ locked, l.bestChainLockBlockIndex = some locked := by
  unfold Handler.hasChainLock at h
  cases enforced : l.isEnforced with
  | false => simp [enforced] at h
  | true =>
    cases hlocked : l.bestChainLockBlockIndex with
    | none => simp [hlocked] at h
    | some locked => exact ⟨rfl, locked, rfl⟩

theorem hasConflictingChainLock_eq (enforced : l.isEnforced = true)
    (hlocked : l.bestChainLockBlockIndex = some locked) (counted : Counted locked)
    (lower : 0 ≤ nHeight) (upper : nHeight ≤ locked.index.nHeight) :
    l.hasConflictingChainLock nHeight hash =
      some (decide (getAncestor locked nHeight ≠ some hash)) := by
  obtain ⟨ancestor, hancestor⟩ := getAncestor_isSome counted lower upper
  unfold Handler.hasConflictingChainLock
  simp only [enforced, Bool.not_true, hlocked, Bool.false_eq_true, if_false,
    if_neg (not_lt.mpr upper)]
  split
  · next heq =>
      rw [heq, getAncestor_self counted]
      simp only [ne_eq, Option.some.injEq, eq_comm]
  · rw [hancestor, Option.map_some]
    simp only [ne_eq, Option.some.injEq]

end

/-! ### Runs -/

structure LockedNode (Sig : Type) where
  chain : ChainState
  locks : Handler Sig

inductive LockCall (Sig : Type) where
  | processNewChainLock (clsig : CChainLockSig Sig) (hash : Uint256)
  | validate (input : Input)
  | acceptedBlockHeader (hash : Uint256)

def LockedNode.start (env : Env) (sig : Sig) : LockedNode Sig := ⟨initial env, fresh sig⟩

/-- Headers and blocks go through validation under whatever it is told of the ChainLocks, and the
signal `AcceptedBlockHeader` comes for a block of the tree at any time. -/
def lockExec (env : Env) (q : SigningQuorums Sig PubKey) (n : LockedNode Sig) :
    LockCall Sig → Option (LockedNode Sig × Unit)
  | .processNewChainLock clsig hash =>
    (processNewChainLock q n.chain n.locks clsig hash).value.map fun locks => ({ n with locks }, ())
  | .validate input => some ({ n with chain := step env n.chain input }, ())
  | .acceptedBlockHeader hash =>
    some ({ n with
      locks := ((n.chain.node? hash).map n.locks.acceptedBlockHeader).getD n.locks }, ())

/-- The block of a CLSIG that is higher than the best one descends from the locked block, if it is
known at its height; so does the block whose header comes in for the best CLSIG. -/
def KeepsLock (n : LockedNode Sig) : LockCall Sig → Prop
  | .processNewChainLock clsig _ =>
    ∀ locked ∈ n.locks.bestChainLockBlockIndex, ∀ node ∈ n.chain.node? clsig.blockHash,
      node.index.nHeight = clsig.height → n.locks.bestChainLock.height < clsig.height →
        locked.hash ∈ node.path
  | .validate _ => True
  | .acceptedBlockHeader hash =>
    ∀ locked ∈ n.locks.bestChainLockBlockIndex, ∀ node ∈ n.chain.node? hash,
      node.hash = n.locks.bestChainLock.blockHash →
        node.index.nHeight = n.locks.bestChainLock.height → locked.hash ∈ node.path

instance (n : LockedNode Sig) : (input : LockCall Sig) → Decidable (KeepsLock n input)
  | .processNewChainLock clsig _ =>
    inferInstanceAs (Decidable (∀ locked ∈ n.locks.bestChainLockBlockIndex,
      ∀ node ∈ n.chain.node? clsig.blockHash, _ → _ → locked.hash ∈ node.path))
  | .validate _ => inferInstanceAs (Decidable True)
  | .acceptedBlockHeader hash =>
    inferInstanceAs (Decidable (∀ locked ∈ n.locks.bestChainLockBlockIndex,
      ∀ node ∈ n.chain.node? hash, _ → _ → locked.hash ∈ node.path))

/-- The locked block is in the tree, and the best CLSIG is not below it. -/
structure LockInv (n : LockedNode Sig) : Prop where
  tree : TreeInv n.chain
  known : ∀ locked ∈ n.locks.bestChainLockBlockIndex, n.chain.node? locked.hash = some locked
  below : ∀ locked ∈ n.locks.bestChainLockBlockIndex,
    locked.index.nHeight ≤ n.locks.bestChainLock.height

variable {hash : Uint256} {locked : BlockNode} {l : Handler Sig} {nHeight : ℤ}

section

variable {env : Env} {q : SigningQuorums Sig PubKey} {n n' : LockedNode Sig}
variable {node : BlockNode} {s : ChainState}

theorem TreeInv.counted (tree : TreeInv s) (h : s.node? hash = some node) : Counted node := tree.height h

/-- What a call does to the locked block: nothing, or it locks a block of the tree that is at the
height of the best CLSIG. -/
structure Relocks (s : ChainState) (l l' : Handler Sig) (node : BlockNode) : Prop where
  known : s.node? node.hash = some node
  height : node.index.nHeight = l'.bestChainLock.height
  locked : l'.bestChainLockBlockIndex = some node
  enforced : l'.isEnforced = l.isEnforced

theorem adopt_cases (tree : TreeInv n.chain) (l : Handler Sig) (clsig : CChainLockSig Sig)
    (hash : Uint256) :
    (l.adopt n.chain clsig hash).bestChainLock = clsig ∧
      (((l.adopt n.chain clsig hash).bestChainLockBlockIndex = l.bestChainLockBlockIndex ∧
          (l.adopt n.chain clsig hash).isEnforced = l.isEnforced) ∨
        ∃ node, n.chain.node? clsig.blockHash = some node ∧ node.index.nHeight = clsig.height ∧
          Relocks n.chain l (l.adopt n.chain clsig hash) node) := by
  unfold Handler.adopt
  cases hnode : n.chain.node? clsig.blockHash with
  | none => exact ⟨rfl, Or.inl ⟨rfl, rfl⟩⟩
  | some node =>
    dsimp only
    by_cases hheight : node.index.nHeight = clsig.height
    · rw [if_neg (not_not.mpr hheight)]
      have known : n.chain.node? node.hash = some node := by
        rw [tree.hash hnode]
        exact hnode
      exact ⟨rfl, Or.inr ⟨node, rfl, hheight, known, hheight, rfl, rfl⟩⟩
    · rw [if_pos hheight]
      exact ⟨rfl, Or.inl ⟨rfl, rfl⟩⟩

variable {clsig : CChainLockSig Sig}

theorem LockInv.higher (inv : LockInv n) (new : ¬ Stale n.locks clsig hash)
    (hlocked : n.locks.bestChainLockBlockIndex = some locked) :
    n.locks.bestChainLock.height < clsig.height := by
  have counted := TreeInv.counted inv.tree (inv.known locked hlocked)
  have below := inv.below locked hlocked
  by_contra low
  refine new (Or.inr ⟨?_, not_lt.mp low⟩)
  have height : n.locks.bestChainLock.nHeight ≠ -1 := by
    intro heq
    unfold CChainLockSig.height at below
    rw [heq, counted] at below
    have negative : (-1 : BitVec 32).toInt = -1 := by decide
    omega
  unfold CChainLockSig.isNull
  rw [decide_eq_false height, Bool.false_and]

variable {l' : Handler Sig}

theorem processNewChainLock_cases
    (h : (processNewChainLock q n.chain n.locks clsig hash).value = some l') :
    (∃ seen, l' = { n.locks with seenChainLocks := seen }) ∨
      ¬ Stale n.locks clsig hash ∧
        l' = ({ n.locks with seenChainLocks := hash :: n.locks.seenChainLocks }).adopt n.chain clsig
          hash := by
  unfold processNewChainLock at h
  by_cases seen : hash ∈ n.locks.seenChainLocks
  · rw [if_pos seen] at h
    exact Or.inl ⟨_, (Option.some.inj h).symm⟩
  rw [if_neg seen] at h
  dsimp only at h
  split at h
  · exact Or.inl ⟨_, (Option.some.inj h).symm⟩
  · next new =>
      rw [Bool.and_eq_true, Bool.not_eq_true', decide_eq_true_eq] at new
      obtain ⟨verified, -, h⟩ := Option.bind_eq_some_iff.mp h
      cases verified with
      | false => exact Or.inl ⟨_, (Option.some.inj h).symm⟩
      | true =>
        obtain ⟨conflicting, -, rfl⟩ := Option.map_eq_some_iff.mp h
        cases conflicting with
        | true => exact Or.inl ⟨_, rfl⟩
        | false => exact Or.inr ⟨fun stale => stale.elim seen new, rfl⟩

/-- The locks of `l'` follow those of `l`: the locked block is the same or a descendant. -/
structure Follows (s : ChainState) (l l' : Handler Sig) : Prop where
  enforced : l'.isEnforced = l.isEnforced
  path : ∀ locked ∈ l.bestChainLockBlockIndex, ∃ locked', l'.bestChainLockBlockIndex = some locked' ∧
    s.node? locked'.hash = some locked' ∧ locked.path <:+ locked'.path

theorem Follows.of_same
    (known : ∀ locked ∈ l.bestChainLockBlockIndex, s.node? locked.hash = some locked)
    (hindex : l'.bestChainLockBlockIndex = l.bestChainLockBlockIndex)
    (enforced : l'.isEnforced = l.isEnforced) : Follows s l l' :=
  ⟨enforced, fun locked hlocked => ⟨locked, hindex.trans hlocked, known locked hlocked,
    List.suffix_rfl⟩⟩

theorem Relocks.follows (inv : LockInv n) (h : Relocks n.chain n.locks l' node)
    (descends : ∀ locked ∈ n.locks.bestChainLockBlockIndex, locked.hash ∈ node.path) :
    Follows n.chain n.locks l' := by
  refine ⟨h.enforced, fun locked hlocked => ⟨node, h.locked, h.known, ?_⟩⟩
  obtain ⟨locked', hfound, suffix⟩ := inv.tree.path_suffix h.known (descends locked hlocked)
  obtain rfl := Option.some.inj ((inv.known locked hlocked).symm.trans hfound)
  exact suffix

theorem Relocks.inv (tree : TreeInv n.chain) (h : Relocks n.chain n.locks l' node) : LockInv { n with locks := l' } := by
  refine ⟨tree, ?_, ?_⟩
  · intro locked hlocked
    obtain rfl := Option.some.inj (h.locked.symm.trans hlocked)
    exact h.known
  · intro locked hlocked
    obtain rfl := Option.some.inj (h.locked.symm.trans hlocked)
    exact h.height.le

theorem LockInv.process (inv : LockInv n) (keeps : KeepsLock n (.processNewChainLock clsig hash))
    (h : (processNewChainLock q n.chain n.locks clsig hash).value = some l') :
    LockInv { n with locks := l' } ∧ Follows n.chain n.locks l' := by
  rcases processNewChainLock_cases h with ⟨seen, rfl⟩ | ⟨new, rfl⟩
  · exact ⟨⟨inv.tree, inv.known, inv.below⟩, Follows.of_same inv.known rfl rfl⟩
  obtain ⟨hbest, hcases⟩ := adopt_cases inv.tree
    { n.locks with seenChainLocks := hash :: n.locks.seenChainLocks } clsig hash
  rcases hcases with ⟨hindex, enforced⟩ | ⟨node, hnode, hheight, relocks⟩
  · refine ⟨⟨inv.tree, fun locked hlocked => inv.known locked (hindex ▸ hlocked), ?_⟩,
      Follows.of_same inv.known hindex enforced⟩
    intro locked hlocked
    dsimp only
    rw [hbest]
    have hlocked : n.locks.bestChainLockBlockIndex = some locked := hindex ▸ hlocked
    exact (inv.below locked hlocked).trans (inv.higher new hlocked).le
  · have relocks : Relocks n.chain n.locks _ node := ⟨relocks.known, relocks.height,
      relocks.locked, relocks.enforced⟩
    refine ⟨relocks.inv inv.tree, relocks.follows inv fun locked hlocked => ?_⟩
    exact keeps locked hlocked node hnode hheight (inv.higher new hlocked)

theorem LockInv.accepted (inv : LockInv n) (keeps : KeepsLock n (.acceptedBlockHeader hash))
    (hnode : n.chain.node? hash = some node) :
    LockInv { n with locks := n.locks.acceptedBlockHeader node } ∧
      Follows n.chain n.locks (n.locks.acceptedBlockHeader node) := by
  have unchanged : LockInv { n with locks := n.locks } ∧ Follows n.chain n.locks n.locks :=
    ⟨inv, Follows.of_same inv.known rfl rfl⟩
  unfold Handler.acceptedBlockHeader
  split
  · next hhash =>
      by_cases hheight : n.locks.bestChainLock.height = node.index.nHeight
      · rw [if_neg (not_not.mpr hheight)]
        have known : n.chain.node? node.hash = some node := by
          rw [inv.tree.hash hnode]
          exact hnode
        have relocks : Relocks n.chain n.locks
            { n.locks with
              bestChainLockWithKnownBlock := n.locks.bestChainLock
              bestChainLockBlockIndex := some node } node :=
          ⟨known, hheight.symm, rfl, rfl⟩
        refine ⟨relocks.inv inv.tree, relocks.follows inv fun locked hlocked => ?_⟩
        exact keeps locked hlocked node hnode hhash hheight.symm
      · rw [if_pos hheight]
        exact unchanged
  · exact unchanged

theorem LockInv.exec (inv : LockInv n) {input : LockCall Sig} {r : Unit}
    (keeps : KeepsLock n input) (h : lockExec env q n input = some (n', r)) :
    LockInv n' ∧ Follows n'.chain n.locks n'.locks := by
  cases input with
  | processNewChainLock clsig hash =>
    obtain ⟨l', hvalue, heq⟩ := Option.map_eq_some_iff.mp h
    obtain ⟨rfl, -⟩ := Prod.mk.inj heq
    exact inv.process keeps hvalue
  | validate input =>
    obtain ⟨rfl, -⟩ := Prod.mk.inj (Option.some.inj h)
    obtain ⟨header, nodes⟩ := step_nodeStep env n.chain input
    have known : ∀ locked ∈ n.locks.bestChainLockBlockIndex,
        (step env n.chain input).node? locked.hash = some locked :=
      fun locked hlocked => nodes.old (inv.known locked hlocked)
    exact ⟨⟨nodes.treeInv inv.tree, known, inv.below⟩, Follows.of_same known rfl rfl⟩
  | acceptedBlockHeader hash =>
    obtain ⟨rfl, -⟩ := Prod.mk.inj (Option.some.inj h)
    cases hnode : n.chain.node? hash with
    | none => exact ⟨inv, Follows.of_same inv.known rfl rfl⟩
    | some node => exact inv.accepted keeps hnode

theorem lockInv_start (sig : Sig) : LockInv (LockedNode.start env sig) := by
  refine ⟨initial_treeInv, ?_, ?_⟩
  · intro locked hlocked
    cases hlocked
  · intro locked hlocked
    cases hlocked

theorem Follows.hasChainLock (inv : LockInv n) (inv' : LockInv n')
    (h : Follows n'.chain n.locks n'.locks) (lock : n.locks.hasChainLock nHeight hash = true) :
    n'.locks.hasChainLock nHeight hash = true := by
  obtain ⟨enforced, locked, hlocked⟩ := hasChainLock_locked lock
  obtain ⟨locked', hlocked', known', suffix⟩ := h.path locked hlocked
  have counted := TreeInv.counted inv.tree (inv.known locked hlocked)
  have counted' := TreeInv.counted inv'.tree known'
  rw [hasChainLock_iff enforced hlocked counted] at lock
  rw [hasChainLock_iff (h.enforced.trans enforced) hlocked' counted',
    getAncestor_of_suffix counted' counted suffix (getAncestor_le lock).2]
  exact lock

end

/-- In a run whose calls all keep the lock, a block that has a ChainLock has it ever after. -/
theorem hasChainLock_persists (env : Env) (q : SigningQuorums Sig PubKey) (sig : Sig)
    {n n' : LockedNode Sig}
    (reached : Steps.Reaches (lockExec env q) KeepsLock (LockedNode.start env sig) n)
    (later : Steps.Reaches (lockExec env q) KeepsLock n n') (nHeight : ℤ) (hash : Uint256)
    (lock : n.locks.hasChainLock nHeight hash = true) :
    n'.locks.hasChainLock nHeight hash = true := by
  have inv : LockInv n := reached.inv (fun h keeps hexec => (h.exec keeps hexec).1)
    (lockInv_start sig)
  have both : LockInv n' ∧ n'.locks.hasChainLock nHeight hash = true := by
    refine later.inv (I := fun n => LockInv n ∧ n.locks.hasChainLock nHeight hash = true) ?_
      ⟨inv, lock⟩
    intro m input m' result h keeps hexec
    obtain ⟨inv', follows⟩ := h.1.exec keeps hexec
    exact ⟨inv', follows.hasChainLock h.1 inv' h.2⟩
  exact both.2

/-! ### A fork that takes the lock away -/

def forkedHeaders : List (LockCall Unit) :=
  .validate (toyBlock 1 2 minerOnly) ::
    ([(2, 3), (3, 4), (4, 5), (5, 6), (6, 7), (7, 8), (8, 9), (8, 10), (10, 11)] :
      List (Uint256 × BitVec 32)).map fun edge =>
        .validate (.header toyCall (toyHeader edge.1 edge.2))

def lockRun (Cond : LockedNode Unit → LockCall Unit → Prop)
    [∀ n input, Decidable (Cond n input)] (clsigs : List (CChainLockSig Unit × Uint256)) :
    Option (LockedNode Unit) :=
  Steps.runWhile (lockExec toyEnv toyQuorums) Cond (LockedNode.start toyEnv ())
    (forkedHeaders ++ clsigs.map fun clsig => .processNewChainLock clsig.1 clsig.2)

theorem hasChainLock_persists_descendant :
    ∃ n n', lockRun KeepsLock [(⟨8, 10, ()⟩, 1)] = some n ∧
      lockExec toyEnv toyQuorums n (.processNewChainLock ⟨9, 11, ()⟩ 2) = some (n', ()) ∧
      n'.locks.hasChainLock 9 11 = true ∧ n'.locks.hasChainLock 8 10 = true := by
  have hrun : ((lockRun KeepsLock [(⟨8, 10, ()⟩, 1)]).bind fun n =>
      (lockExec toyEnv toyQuorums n (.processNewChainLock ⟨9, 11, ()⟩ 2)).map fun r =>
        (n.locks.hasChainLock 8 10, decide (KeepsLock n (.processNewChainLock ⟨9, 11, ()⟩ 2)),
          r.1.locks.hasChainLock 9 11)) = some (true, true, true) := by
    decide +kernel
  obtain ⟨n, hn, hmap⟩ := Option.bind_eq_some_iff.mp hrun
  obtain ⟨⟨n', u⟩, hexec, heq⟩ := Option.map_eq_some_iff.mp hmap
  simp only [Prod.mk.injEq, decide_eq_true_eq] at heq
  obtain ⟨lock, keeps, lock'⟩ := heq
  refine ⟨n, n', hn, hexec, lock', ?_⟩
  exact hasChainLock_persists toyEnv toyQuorums () (Steps.Reaches.start.runWhile hn)
    (Steps.Reaches.start.step keeps hexec) 8 10 lock

/-- Block 9 is locked, and then 11 of the other branch. -/
theorem hasChainLock_lost :
    ∃ n n', lockRun (fun _ _ => True) [(⟨8, 9, ()⟩, 1)] = some n ∧
      n.locks.hasChainLock 8 9 = true ∧
      lockExec toyEnv toyQuorums n (.processNewChainLock ⟨9, 11, ()⟩ 2) = some (n', ()) ∧
      n'.locks.isEnforced = true ∧ n'.locks.hasChainLock 8 9 = false := by
  have hrun : ((lockRun (fun _ _ => True) [(⟨8, 9, ()⟩, 1)]).bind fun n =>
      (lockExec toyEnv toyQuorums n (.processNewChainLock ⟨9, 11, ()⟩ 2)).map fun r =>
        (n.locks.hasChainLock 8 9, r.1.locks.isEnforced, r.1.locks.hasChainLock 8 9)) =
      some (true, true, false) := by
    decide +kernel
  obtain ⟨n, hn, hmap⟩ := Option.bind_eq_some_iff.mp hrun
  obtain ⟨⟨n', u⟩, hexec, heq⟩ := Option.map_eq_some_iff.mp hmap
  simp only [Prod.mk.injEq] at heq
  exact ⟨n, n', hn, heq.1, hexec, heq.2⟩

/-! ### The headers of the locked chain -/

/-- A call that reads the ChainLocks of the handler; the assertion holds at the heights that
`AcceptBlockHeader` asks for. -/
def withLocks (call : CallEnv) (l : Handler Sig) : CallEnv :=
  { call with
    hasConflictingChainLock := fun nHeight hash =>
      (l.hasConflictingChainLock nHeight hash).getD false }

variable {e pindexPrev : BlockIndex}

section

variable (env : Env) (call : CallEnv) (s : ChainState) (header : CBlockHeader)

/-- The header is not refused for the ChainLock, and no block is newly marked for it. -/
structure NotLockedOut : Prop where
  result : (acceptBlockHeader env call s header).2 ≠ .error (.invalid (reject 10 "bad-chainlock"))
  marks : ∀ (hash : Uint256) e',
    (acceptBlockHeader env call s header).1.mapBlockIndex[hash]? = some e' →
    e'.conflictChainlock = true → ∃ e, s.mapBlockIndex[hash]? = some e ∧ e.conflictChainlock = true

/-- The header comes to the test for a conflicting ChainLock, on top of the block `pindexPrev`. -/
structure ReachesLockTest (pindexPrev : BlockIndex) : Prop where
  notGenesis : env.getPOWHash header ≠ env.hashGenesisBlock
  unknown : s.mapBlockIndex[env.getPOWHash header]? = none
  checks : checkNewHeader env call s header = .ok pindexPrev
  ancestors : failedAncestor s pindexPrev = none

variable {env call s header}

theorem addToBlockIndex_known (conflict : Bool)
    (known : s.mapBlockIndex[env.getHash header]? = some e) :
    addToBlockIndex env s header conflict = s := by
  unfold addToBlockIndex
  rw [if_pos]
  exact Std.ExtTreeMap.contains_iff_mem.mpr (Std.ExtTreeMap.mem_iff_isSome_getElem?.mpr (by simp [known]))

theorem markFailedChildren_conflict (hashes : List Uint256) (hash : Uint256) {e' : BlockIndex}
    (h : (markFailedChildren s hashes).mapBlockIndex[hash]? = some e') :
    ∃ e, s.mapBlockIndex[hash]? = some e ∧ e.conflictChainlock = e'.conflictChainlock := by
  unfold markFailedChildren at h
  induction hashes generalizing s with
  | nil => exact ⟨e', h, rfl⟩
  | cons k hashes ih =>
    obtain ⟨e, he, hflag⟩ := ih h
    rw [ChainState.getElem?_update] at he
    split at he
    · obtain ⟨e₀, he₀, rfl⟩ := Option.map_eq_some_iff.mp he
      exact ⟨e₀, he₀, hflag⟩
    · exact ⟨e, he, hflag⟩

theorem checkNewHeader_prev (h : checkNewHeader env call s header = .ok pindexPrev) :
    s.mapBlockIndex[header.hashPrevBlock]? = some pindexPrev := by
  simp only [checkNewHeader, Checked.bind_eq_ok, Checked.expect_eq_ok, Checked.pure_eq_ok] at h
  obtain ⟨-, -, p, hp, -, -, -, -, -, -, rfl⟩ := h
  exact hp

theorem checkNewHeader_reason {r : Invalid} (h : checkNewHeader env call s header = .error r) :
    r ≠ reject 10 "bad-chainlock" := by
  simp only [checkNewHeader, checkBlockHeader, contextualCheckBlockHeader, Checked.bind_eq_error,
    Checked.failIf_eq_error, Checked.expect_eq_error, Checked.pure_ne_error] at h
  rintro rfl
  simp [reject] at h

theorem NotLockedOut.of_eq {t : ChainState} {r : Except Fault Uint256}
    (h : acceptBlockHeader env call s header = (t, r))
    (result : r ≠ .error (.invalid (reject 10 "bad-chainlock")))
    (marks : ∀ (hash : Uint256) e', t.mapBlockIndex[hash]? = some e' → ∃ e,
      s.mapBlockIndex[hash]? = some e ∧ e.conflictChainlock = e'.conflictChainlock) :
    NotLockedOut env call s header := by
  refine ⟨?_, ?_⟩
  · rw [h]
    exact result
  · intro hash e' he hflag
    rw [h] at he
    obtain ⟨e, hold, hsame⟩ := marks hash e' he
    exact ⟨e, hold, hsame.trans hflag⟩

theorem notLockedOut_of_not_reaches (known : s.mapBlockIndex[env.getHash header]? = some e)
    (h : ∀ pindexPrev, ¬ ReachesLockTest env call s header pindexPrev) :
    NotLockedOut env call s header := by
  have same : ∀ (hash : Uint256) e', s.mapBlockIndex[hash]? = some e' → ∃ e,
      s.mapBlockIndex[hash]? = some e ∧ e.conflictChainlock = e'.conflictChainlock :=
    fun hash e' he => ⟨e', he, rfl⟩
  by_cases genesis : env.getPOWHash header = env.hashGenesisBlock
  · have heq : acceptBlockHeader env call s header = (s, .ok (env.getHash header)) := by
      unfold acceptBlockHeader
      rw [if_pos genesis, addToBlockIndex_known false known]
    exact .of_eq heq (by simp) same
  cases found : s.mapBlockIndex[env.getPOWHash header]? with
  | some pindex =>
    have heq : acceptBlockHeader env call s header = (s, if pindex.failed then
        .error (.invalid ⟨0, .zero, "duplicate", false⟩) else .ok (env.getPOWHash header)) := by
      unfold acceptBlockHeader
      simp only [if_neg genesis, found]
    refine .of_eq heq ?_ same
    split
    · simp [reject]
    · simp
  | none =>
    cases checks : checkNewHeader env call s header with
    | error r =>
      have heq : acceptBlockHeader env call s header = (s, .error (.invalid r)) := by
        unfold acceptBlockHeader
        simp only [if_neg genesis, found, checks]
      refine .of_eq heq ?_ same
      intro hr
      exact checkNewHeader_reason checks (Fault.invalid.inj (Except.error.inj hr))
    | ok pindexPrev =>
      have heq : acceptBlockHeader env call s header =
          acceptNewHeader env call s header pindexPrev := by
        unfold acceptBlockHeader
        simp only [if_neg genesis, found, checks]
      cases failed : failedAncestor s pindexPrev with
      | none => exact absurd ⟨genesis, found, checks, failed⟩ (h pindexPrev)
      | some failedit =>
        unfold acceptNewHeader at heq
        simp only [failed] at heq
        split at heq
        · refine .of_eq heq (by simp [reject]) ?_
          exact fun hash e' he => markFailedChildren_conflict _ hash he
        · exact .of_eq heq (by simp) same

end

section

variable {env : Env} {call : CallEnv} {s : ChainState} {header : CBlockHeader}

theorem acceptBlockHeader_conflicting (enforced : l.isEnforced = true)
    (hlocked : l.bestChainLockBlockIndex = some locked) (counted : Counted locked)
    (onLocked : getAncestor locked (pindexPrev.index.nHeight + 1) = some (env.getHash header))
    (known : s.mapBlockIndex[env.getHash header]? = some e)
    (reaches : ReachesLockTest env (withLocks call l) s header pindexPrev) :
    (acceptBlockHeader env (withLocks call l) s header).2 =
      .error (.invalid (reject 10 "bad-chainlock")) := by
  have hne : getAncestor locked (pindexPrev.index.nHeight + 1) ≠ some (env.getPOWHash header) := by
    intro heq
    rw [onLocked, Option.some.injEq] at heq
    rw [heq, reaches.unknown] at known
    cases known
  obtain ⟨lower, upper⟩ := getAncestor_le onLocked
  have conflict : (withLocks call l).hasConflictingChainLock (pindexPrev.index.nHeight + 1)
      (env.getPOWHash header) = true := by
    change (l.hasConflictingChainLock _ _).getD false = true
    rw [hasConflictingChainLock_eq enforced hlocked counted lower upper, decide_eq_true hne]
    rfl
  unfold acceptBlockHeader
  simp only [if_neg reaches.notGenesis, reaches.unknown, reaches.checks]
  unfold acceptNewHeader
  simp only [reaches.ancestors, if_pos conflict]

theorem known_of_getAncestor (tree : TreeInv s) (known : s.node? locked.hash = some locked)
    (h : getAncestor locked nHeight = some hash) :
    ∃ e, s.mapBlockIndex[hash]? = some e := by
  obtain ⟨node, hnode, -⟩ := tree.path_suffix known (getAncestor_mem h)
  obtain ⟨e, he, -⟩ := Option.map_eq_some_iff.mp hnode
  exact ⟨e, he⟩

end

/-- A header of the locked chain is let through exactly when it does not come to the test for a
conflicting ChainLock. -/
theorem acceptBlockHeader_notLockedOut_iff (env : Env) (call : CallEnv) (s : ChainState)
    (header : CBlockHeader) (l : Handler Sig) (locked : BlockNode) (pindexPrev : BlockIndex)
    (tree : TreeInv s) (enforced : l.isEnforced = true)
    (hlocked : l.bestChainLockBlockIndex = some locked)
    (known : s.node? locked.hash = some locked)
    (hprev : s.mapBlockIndex[header.hashPrevBlock]? = some pindexPrev)
    (onLocked : getAncestor locked (pindexPrev.index.nHeight + 1) = some (env.getHash header)) :
    NotLockedOut env (withLocks call l) s header ↔
      ¬ ReachesLockTest env (withLocks call l) s header pindexPrev := by
  obtain ⟨e, hown⟩ := known_of_getAncestor tree known onLocked
  constructor
  · intro h reaches
    exact h.result (acceptBlockHeader_conflicting enforced hlocked (TreeInv.counted tree known)
      onLocked hown reaches)
  · intro h
    refine notLockedOut_of_not_reaches hown fun pindex reaches => h ?_
    obtain rfl := Option.some.inj (hprev.symm.trans (checkNewHeader_prev reaches.checks))
    exact reaches

def oneHeader (header : CBlockHeader) : ChainState :=
  step ghostEnv (initial ghostEnv) (.header toyCall header)

def lockTwo (s : ChainState) : Handler Unit := (fresh ()).adopt s ⟨1, 2, ()⟩ 7

theorem acceptBlockHeader_notLockedOut_sha256d :
    NotLockedOut ghostEnv (withLocks toyCall (lockTwo (oneHeader (toyHeader 1 2))))
      (oneHeader (toyHeader 1 2)) (toyHeader 1 2) := by
  have hrun : ((lockTwo (oneHeader (toyHeader 1 2))).bestChainLockBlockIndex.bind fun locked =>
      (oneHeader (toyHeader 1 2)).mapBlockIndex[(1 : Uint256)]?.map fun pindexPrev =>
        ((oneHeader (toyHeader 1 2)).node? locked.hash == some locked,
          getAncestor locked (pindexPrev.index.nHeight + 1))) = some (true, some 2) := by
    decide +kernel
  obtain ⟨locked, hlocked, hmap⟩ := Option.bind_eq_some_iff.mp hrun
  obtain ⟨pindexPrev, hprev, heq⟩ := Option.map_eq_some_iff.mp hmap
  obtain ⟨known, onLocked⟩ := Prod.mk.inj heq
  obtain ⟨header, nodes⟩ := step_nodeStep ghostEnv (initial ghostEnv)
    (.header toyCall (toyHeader 1 2))
  have tree : TreeInv (oneHeader (toyHeader 1 2)) := nodes.treeInv initial_treeInv
  refine (acceptBlockHeader_notLockedOut_iff ghostEnv toyCall (oneHeader (toyHeader 1 2))
    (toyHeader 1 2) _ locked pindexPrev tree (by decide +kernel) hlocked (beq_iff_eq.mp known)
    hprev onLocked).mpr ?_
  intro reaches
  have found : ((oneHeader (toyHeader 1 2)).mapBlockIndex[
      ghostEnv.getPOWHash (toyHeader 1 2)]?).isSome = true := by
    decide +kernel
  rw [reaches.unknown] at found
  cases found

/-- The header of the locked block itself arrives once more, mined with Ghostrider. -/
theorem acceptBlockHeader_locked_out :
    (lockTwo (oneHeader (ghostHeader 1 2))).isEnforced = true ∧
      (lockTwo (oneHeader (ghostHeader 1 2))).bestChainLockBlockIndex.map BlockNode.hash =
        some (ghostEnv.getHash (ghostHeader 1 2)) ∧
      (acceptBlockHeader ghostEnv (withLocks toyCall (lockTwo (oneHeader (ghostHeader 1 2))))
          (oneHeader (ghostHeader 1 2)) (ghostHeader 1 2)).2 =
        .error (.invalid (reject 10 "bad-chainlock")) := by
  decide +kernel

end ButCore.Llmq.ChainLocks
