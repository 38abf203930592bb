import ButCore.Lib.Table
import ButCore.Spork

/-!
# The sporks of a loaded file

`CheckAndRemove` runs when the sporks have been read from disk.
-/
namespace ButCore.Spork

open Std (ExtTreeMap)

def checkSignature (env : Env) (spork : CSporkMessage) (pubKeyId : CKeyID) : Bool :=
  decide (env.getSignerKeyID spork = some pubKeyId)

/-- The two maps are finite: their keys in the order in which they are visited. -/
structure Loaded extends CSporkManager where
  sporkIds : List SporkId
  hashes : List Uint256
  distinct : sporkIds.Nodup
  mem_sporkIds : ∀ nSporkID, nSporkID ∈ sporkIds ↔ (mapSporksActive nSporkID).isSome = true
  mem_hashes : ∀ hash, hash ∈ hashes ↔ (mapSporksByHash hash).isSome = true

section

variable (env : Env) (keys : Finset CKeyID)

/-- The loop over the signers of one spork: `itSignerPair` and what follows it, the map it walks
over, and `mapSporksByHash`. Nothing if it has not ended within `rounds`. -/
def signersLoop : ℕ → List (CKeyID × CSporkMessage) → ExtTreeMap CKeyID CSporkMessage →
    (Uint256 → Option CSporkMessage) →
    Option (ExtTreeMap CKeyID CSporkMessage × (Uint256 → Option CSporkMessage))
  | 0, _, _, _ => none
  | _ + 1, [], signers, byHash => some (signers, byHash)
  | rounds + 1, (key, spork) :: rest, signers, byHash =>
    let erased := Function.update byHash (env.getHash spork) none
    -- the iterator is not moved here
    if key ∉ keys then signersLoop rounds ((key, spork) :: rest) signers erased
    else if checkSignature env spork key = false then
      signersLoop rounds rest (signers.erase key) erased
    else signersLoop rounds rest signers byHash

def keepSigners (manager : CSporkManager) (nSporkID : SporkId)
    (signers : ExtTreeMap CKeyID CSporkMessage) (byHash : Uint256 → Option CSporkMessage) :
    CSporkManager :=
  { manager with
    mapSporksByHash := byHash
    mapSporksActive := Function.update manager.mapSporksActive nSporkID
      (if signers.isEmpty then none else some signers) }

def checkSpork (rounds : ℕ) (manager : CSporkManager) (nSporkID : SporkId) :
    Option CSporkManager :=
  match manager.mapSporksActive nSporkID with
  | none => some manager
  | some signers =>
    (signersLoop env manager.setSporkPubKeyIDs rounds signers.toList signers
      manager.mapSporksByHash).map fun out => keepSigners manager nSporkID out.1 out.2

def checkByHash (manager : CSporkManager) (hash : Uint256) : CSporkManager :=
  match manager.mapSporksByHash hash with
  | none => manager
  | some spork =>
    if ∃ signer ∈ manager.setSporkPubKeyIDs, checkSignature env spork signer = true then manager
    else { manager with
      mapSporksByHash := Function.update manager.mapSporksByHash hash none }

/-- Nothing if the assertion fails, or a loop has not ended within `rounds`. -/
def checkAndRemove (rounds : ℕ) (loaded : Loaded) : Option CSporkManager :=
  if loaded.setSporkPubKeyIDs.Nonempty then do
    let manager ← loaded.sporkIds.foldlM (checkSpork env rounds) loaded.toCSporkManager
    pure (loaded.hashes.foldl (checkByHash env) manager)
  else none

end

def CSporkManager.Configured (manager : CSporkManager) : Prop :=
  ∀ nSporkID key spork, manager.held nSporkID key = some spork → key ∈ manager.setSporkPubKeyIDs

/-- What is left: of the active entries those with a spork key's own signature, and by hash only
messages that a spork key has signed. -/
structure Cleaned (env : Env) (manager after : CSporkManager) : Prop where
  active : ∀ nSporkID key spork, after.held nSporkID key = some spork ↔
    manager.held nSporkID key = some spork ∧ key ∈ manager.setSporkPubKeyIDs ∧
      checkSignature env spork key = true
  byHash : ∀ hash spork, after.mapSporksByHash hash = some spork →
    ∃ key ∈ manager.setSporkPubKeyIDs, checkSignature env spork key = true

section

variable {env : Env} {keys : Finset CKeyID} {rest : List (CKeyID × CSporkMessage)}
  {signers : ExtTreeMap CKeyID CSporkMessage} {byHash : Uint256 → Option CSporkMessage}

theorem signersLoop_configured (configured : ∀ p ∈ rest, p.1 ∈ keys) {rounds : ℕ}
    (enough : rest.length < rounds) :
    ∃ out, signersLoop env keys rounds rest signers byHash = some out ∧
      (∀ key spork, out.1[key]? = some spork ↔
        signers[key]? = some spork ∧ ∀ p ∈ rest, p.1 = key → checkSignature env p.2 key = true) ∧
      ∀ hash spork, out.2 hash = some spork → byHash hash = some spork := by
  induction rest generalizing rounds signers byHash with
  | nil =>
    obtain ⟨rounds, rfl⟩ := Nat.exists_eq_add_one_of_ne_zero enough.ne'
    exact ⟨_, rfl, by simp, fun _ _ h => h⟩
  | cons p rest ih =>
    obtain ⟨rounds, rfl⟩ := Nat.exists_eq_add_one_of_ne_zero (Nat.ne_zero_of_lt enough)
    obtain ⟨mine, others⟩ := List.forall_mem_cons.mp configured
    have left : rest.length < rounds := by simpa using enough
    rw [signersLoop, if_neg (not_not.mpr mine)]
    cases signed : checkSignature env p.2 p.1 with
    | true =>
      obtain ⟨out, hrun, hout, hhash⟩ := ih others left
      refine ⟨out, hrun, ?_, hhash⟩
      intro key spork
      have first : p.1 = key → checkSignature env p.2 key = true := fun hkey => hkey ▸ signed
      rw [hout, List.forall_mem_cons, and_iff_right first]
    | false =>
      obtain ⟨out, hrun, hout, hhash⟩ := ih others left
      refine ⟨out, hrun, ?_, ?_⟩
      · intro key spork
        rw [hout, Keyed.getElem?_erase_eq, List.forall_mem_cons]
        by_cases hkey : key = p.1
        · subst hkey
          simp [signed]
        · simp [hkey, Ne.symm hkey]
      · intro hash spork found
        exact (Table.update_none_eq_some.mp (hhash hash spork found)).1

theorem signersLoop_stuck {key : CKeyID} {spork : CSporkMessage} (mem : (key, spork) ∈ rest)
    (unknown : key ∉ keys) (rounds : ℕ) : signersLoop env keys rounds rest signers byHash = none := by
  induction rounds generalizing rest signers byHash with
  | zero => rfl
  | succ rounds ih =>
    cases rest with
    | nil => cases mem
    | cons p rest =>
      rw [signersLoop]
      by_cases known : p.1 ∈ keys
      · have later : (key, spork) ∈ rest := by
          refine (List.mem_cons.mp mem).resolve_left ?_
          rintro rfl
          exact unknown known
        rw [if_neg (not_not.mpr known)]
        split
        · exact ih later
        · exact ih later
      · rw [if_pos known]
        exact ih mem

end

section

variable {env : Env} {manager : CSporkManager} {rounds : ℕ}

structure SporkChecked (env : Env) (manager : CSporkManager) (ids : List SporkId)
    (after : CSporkManager) : Prop where
  keys : after.setSporkPubKeyIDs = manager.setSporkPubKeyIDs
  held : ∀ id key spork, after.held id key = some spork ↔ manager.held id key = some spork ∧
    (id ∈ ids → checkSignature env spork key = true)
  byHash : ∀ hash spork, after.mapSporksByHash hash = some spork →
    manager.mapSporksByHash hash = some spork

theorem SporkChecked.cons {after after' : CSporkManager} {nSporkID : SporkId} {ids : List SporkId}
    (first : SporkChecked env manager [nSporkID] after) (rest : SporkChecked env after ids after') :
    SporkChecked env manager (nSporkID :: ids) after' where
  keys := rest.keys.trans first.keys
  held id key spork := by
    rw [rest.held, first.held, and_assoc, List.mem_singleton, List.mem_cons, or_imp]
  byHash hash spork found := first.byHash hash spork (rest.byHash hash spork found)

theorem SporkChecked.configured {after : CSporkManager} {ids : List SporkId}
    (checked : SporkChecked env manager ids after) (configured : manager.Configured) :
    after.Configured := by
  intro id key spork held
  rw [checked.keys]
  exact configured id key spork ((checked.held id key spork).mp held).1

theorem held_keepSigners (nSporkID : SporkId) (signers : ExtTreeMap CKeyID CSporkMessage)
    (byHash : Uint256 → Option CSporkMessage) (id : SporkId) (key : CKeyID) :
    (keepSigners manager nSporkID signers byHash).held id key =
      if id = nSporkID then signers[key]? else manager.held id key := by
  unfold CSporkManager.held keepSigners
  by_cases hid : id = nSporkID
  · subst hid
    rw [if_pos rfl]
    dsimp only
    rw [Function.update_self]
    split
    · next empty =>
        rw [ExtTreeMap.isEmpty_iff.mp empty]
        simp
    · rfl
  · rw [if_neg hid]
    dsimp only
    rw [Function.update_of_ne hid]

theorem checkSpork_frame {nSporkID : SporkId} {after : CSporkManager}
    (h : checkSpork env rounds manager nSporkID = some after) :
    after.setSporkPubKeyIDs = manager.setSporkPubKeyIDs ∧
      ∀ id, id ≠ nSporkID → after.mapSporksActive id = manager.mapSporksActive id := by
  unfold checkSpork at h
  split at h
  · obtain rfl := Option.some.inj h
    exact ⟨rfl, fun _ _ => rfl⟩
  · obtain ⟨out, -, rfl⟩ := Option.map_eq_some_iff.mp h
    exact ⟨rfl, fun id other => Function.update_of_ne other _ _⟩

theorem checkSpork_configured (configured : manager.Configured) {nSporkID : SporkId}
    (fits : ∀ signers, manager.mapSporksActive nSporkID = some signers →
      signers.toList.length < rounds) :
    ∃ after, checkSpork env rounds manager nSporkID = some after ∧
      SporkChecked env manager [nSporkID] after := by
  unfold checkSpork
  cases hactive : manager.mapSporksActive nSporkID with
  | none =>
    refine ⟨manager, rfl, rfl, ?_, fun _ _ found => found⟩
    intro id key spork
    refine (and_iff_left_of_imp ?_).symm
    intro held hid
    rw [CSporkManager.held, List.mem_singleton.mp hid, hactive] at held
    cases held
  | some signers =>
    have held_iff (key : CKeyID) : manager.held nSporkID key = signers[key]? := by
      rw [CSporkManager.held, hactive]
      rfl
    have known : ∀ p ∈ signers.toList, p.1 ∈ manager.setSporkPubKeyIDs := by
      intro p hp
      refine configured nSporkID p.1 p.2 ?_
      rw [held_iff]
      exact ExtTreeMap.mem_toList_iff_getElem?_eq_some.mp hp
    obtain ⟨out, hrun, hout, hbyHash⟩ := @signersLoop_configured env _ _ signers
      manager.mapSporksByHash known _ (fits signers hactive)
    refine ⟨keepSigners manager nSporkID out.1 out.2, Option.map_eq_some_iff.mpr ⟨out, hrun, rfl⟩,
      rfl, ?_, hbyHash⟩
    intro id key spork
    rw [held_keepSigners, List.mem_singleton]
    by_cases hid : id = nSporkID
    · subst hid
      rw [if_pos rfl, hout, held_iff]
      refine and_congr_right fun found => ?_
      constructor
      · intro all _
        exact all (key, spork) (ExtTreeMap.mem_toList_iff_getElem?_eq_some.mpr found) rfl
      · rintro signed p hp rfl
        rw [ExtTreeMap.mem_toList_iff_getElem?_eq_some.mp hp, Option.some.injEq] at found
        exact found ▸ signed rfl
    · simp [hid]

theorem checkSporks_configured {ids : List SporkId} (distinct : ids.Nodup)
    (configured : manager.Configured)
    (fits : ∀ id ∈ ids, ∀ signers, manager.mapSporksActive id = some signers →
      signers.toList.length < rounds) :
    ∃ after, ids.foldlM (checkSpork env rounds) manager = some after ∧
      SporkChecked env manager ids after := by
  induction ids generalizing manager with
  | nil => exact ⟨manager, rfl, rfl, by simp, fun _ _ found => found⟩
  | cons nSporkID ids ih =>
    obtain ⟨fresh, distinct⟩ := List.nodup_cons.mp distinct
    obtain ⟨mine, others⟩ := List.forall_mem_cons.mp fits
    obtain ⟨after, hrun, checked⟩ := @checkSpork_configured env _ _ configured _ mine
    have same := (checkSpork_frame hrun).2
    obtain ⟨after', hrun', checked'⟩ := ih distinct (checked.configured configured) (by
      intro id hid
      rw [same id fun heq => fresh (heq ▸ hid)]
      exact others id hid)
    refine ⟨after', ?_, checked.cons checked'⟩
    rw [List.foldlM_cons, hrun]
    exact hrun'

theorem checkSporks_stuck {ids : List SporkId} {id : SporkId} (hid : id ∈ ids) {key : CKeyID}
    {spork : CSporkMessage} (held : manager.held id key = some spork)
    (unknown : key ∉ manager.setSporkPubKeyIDs) :
    ids.foldlM (checkSpork env rounds) manager = none := by
  induction ids generalizing manager with
  | nil => cases hid
  | cons nSporkID ids ih =>
    rw [List.foldlM_cons]
    by_cases first : id = nSporkID
    · subst first
      obtain ⟨signers, hactive, found⟩ := Option.bind_eq_some_iff.mp held
      unfold checkSpork
      rw [hactive]
      dsimp only
      rw [signersLoop_stuck (ExtTreeMap.mem_toList_iff_getElem?_eq_some.mpr found) unknown]
      rfl
    · cases hrun : checkSpork env rounds manager nSporkID with
      | none => rfl
      | some after =>
        obtain ⟨keys, same⟩ := checkSpork_frame hrun
        refine ih ((List.mem_cons.mp hid).resolve_left first) ?_ (keys ▸ unknown)
        rw [CSporkManager.held, same id first]
        exact held

end

theorem foldl_checkByHash {env : Env} {hashes : List Uint256} {manager : CSporkManager} :
    (hashes.foldl (checkByHash env) manager).mapSporksActive = manager.mapSporksActive ∧
      (hashes.foldl (checkByHash env) manager).setSporkPubKeyIDs = manager.setSporkPubKeyIDs ∧
      ∀ hash spork, (hashes.foldl (checkByHash env) manager).mapSporksByHash hash = some spork →
        manager.mapSporksByHash hash = some spork ∧ (hash ∈ hashes →
          ∃ key ∈ manager.setSporkPubKeyIDs, checkSignature env spork key = true) := by
  induction hashes generalizing manager with
  | nil => exact ⟨rfl, rfl, by simp⟩
  | cons first hashes ih =>
    have step : (checkByHash env manager first).mapSporksActive = manager.mapSporksActive ∧
        (checkByHash env manager first).setSporkPubKeyIDs = manager.setSporkPubKeyIDs ∧
        ∀ hash spork, (checkByHash env manager first).mapSporksByHash hash = some spork →
          manager.mapSporksByHash hash = some spork ∧ (hash = first →
            ∃ key ∈ manager.setSporkPubKeyIDs, checkSignature env spork key = true) := by
      unfold checkByHash
      cases found : manager.mapSporksByHash first with
      | none =>
        refine ⟨rfl, rfl, fun hash spork h => ⟨h, ?_⟩⟩
        rintro rfl
        rw [found] at h
        cases h
      | some spork' =>
        dsimp only
        split
        · next signed =>
            refine ⟨rfl, rfl, fun hash spork h => ⟨h, ?_⟩⟩
            rintro rfl
            rw [found, Option.some.injEq] at h
            exact h ▸ signed
        · refine ⟨rfl, rfl, fun hash spork h => ?_⟩
          obtain ⟨h, other⟩ := Table.update_none_eq_some.mp h
          exact ⟨h, fun heq => absurd heq.symm other⟩
    obtain ⟨active, keys, kept⟩ := step
    obtain ⟨active', keys', kept'⟩ := @ih (checkByHash env manager first)
    refine ⟨active'.trans active, keys'.trans keys, ?_⟩
    intro hash spork h
    obtain ⟨h, later⟩ := kept' hash spork h
    obtain ⟨h, now⟩ := kept hash spork h
    rw [keys] at later
    refine ⟨h, fun hmem => ?_⟩
    exact (List.mem_cons.mp hmem).elim now later

/-- The call ends, with what it should leave, exactly when every stored signer is a spork key. -/
theorem checkAndRemove_cleaned_iff (env : Env) (loaded : Loaded)
    (nonempty : loaded.setSporkPubKeyIDs.Nonempty) :
    (∃ rounds after, checkAndRemove env rounds loaded = some after ∧
      Cleaned env loaded.toCSporkManager after) ↔ loaded.Configured := by
  constructor
  · rintro ⟨rounds, after, hrun, -⟩ nSporkID key spork held
    by_contra unknown
    obtain ⟨signers, hactive, -⟩ := Option.bind_eq_some_iff.mp held
    have hid := (loaded.mem_sporkIds nSporkID).mpr (Option.isSome_iff_exists.mpr ⟨_, hactive⟩)
    rw [checkAndRemove, if_pos nonempty, checkSporks_stuck hid held unknown] at hrun
    cases hrun
  · intro configured
    obtain ⟨bound, hbound⟩ := Finset.exists_le (loaded.sporkIds.toFinset.image fun id =>
      ((loaded.mapSporksActive id).getD ∅).toList.length)
    have fits : ∀ id ∈ loaded.sporkIds, ∀ signers, loaded.mapSporksActive id = some signers →
        signers.toList.length < bound + 1 := by
      intro id hid signers hactive
      refine Nat.lt_succ_of_le (hbound _ (Finset.mem_image.mpr ⟨id, List.mem_toFinset.mpr hid, ?_⟩))
      rw [hactive]
      rfl
    obtain ⟨checked, hrun, hchecked⟩ := checkSporks_configured loaded.distinct configured fits
    obtain ⟨active, -, kept⟩ := @foldl_checkByHash env loaded.hashes checked
    refine ⟨bound + 1, loaded.hashes.foldl (checkByHash env) checked, ?_, ?_, ?_⟩
    · rw [checkAndRemove, if_pos nonempty, hrun]
      rfl
    · intro id key spork
      rw [CSporkManager.held, active]
      refine (hchecked.held id key spork).trans (and_congr_right fun held => ?_)
      obtain ⟨signers, hactive, -⟩ := Option.bind_eq_some_iff.mp held
      have hid := (loaded.mem_sporkIds id).mpr (Option.isSome_iff_exists.mpr ⟨_, hactive⟩)
      rw [and_iff_right (configured id key spork held), imp_iff_right hid]
    · intro hash spork found
      obtain ⟨found, signed⟩ := kept hash spork found
      have present := hchecked.byHash hash spork found
      rw [hchecked.keys] at signed
      exact signed ((loaded.mem_hashes hash).mpr (Option.isSome_iff_exists.mpr ⟨_, present⟩))

def toyLoaded (setSporkPubKeyIDs : Finset CKeyID) (spork : CSporkMessage) : Loaded where
  mapSporksByHash := Function.update (fun _ => none) (toyEnv.getHash spork) (some spork)
  mapSporksActive := Function.update (fun _ => none) 10001 (some (ExtTreeMap.empty.insert 1 spork))
  setSporkPubKeyIDs := setSporkPubKeyIDs
  nMinSporkKeys := 1
  sporkIds := [10001]
  hashes := [toyEnv.getHash spork]
  distinct := by simp
  mem_sporkIds nSporkID := by by_cases h : nSporkID = 10001 <;> simp [Function.update, h]
  mem_hashes hash := by by_cases h : hash = toyEnv.getHash spork <;> simp [Function.update, h]

theorem held_toyLoaded {keys : Finset CKeyID} {spork spork' : CSporkMessage} {nSporkID : SporkId}
    {key : CKeyID} (held : (toyLoaded keys spork).held nSporkID key = some spork') : key = 1 := by
  by_cases hid : nSporkID = 10001
  · simp [CSporkManager.held, toyLoaded, hid, Keyed.getElem?_insert_eq] at held
    exact held.1
  · have absent : (toyLoaded keys spork).mapSporksActive nSporkID = none := by
      dsimp only [toyLoaded]
      rw [Function.update_of_ne hid]
    rw [CSporkManager.held, absent] at held
    cases held

theorem checkAndRemove_cleaned_forged : ∃ rounds after,
    checkAndRemove toyEnv rounds (toyLoaded {1, 2} (toySpork 2 5 10)) = some after ∧
      Cleaned toyEnv (toyLoaded {1, 2} (toySpork 2 5 10)).toCSporkManager after := by
  refine (checkAndRemove_cleaned_iff toyEnv _ ⟨1, by decide⟩).mpr ?_
  intro nSporkID key spork held
  rw [held_toyLoaded held]
  decide

/-- The file was saved when 1 was a spork key, and now 2 is. -/
theorem checkAndRemove_loops : (toyLoaded {2} (toySpork 1 5 10)).setSporkPubKeyIDs.Nonempty ∧
    ∀ rounds, checkAndRemove toyEnv rounds (toyLoaded {2} (toySpork 1 5 10)) = none := by
  have nonempty : (toyLoaded {2} (toySpork 1 5 10)).setSporkPubKeyIDs.Nonempty := ⟨2, by decide⟩
  have held : (toyLoaded {2} (toySpork 1 5 10)).held 10001 1 = some (toySpork 1 5 10) := by
    simp [CSporkManager.held, toyLoaded]
  refine ⟨nonempty, fun rounds => ?_⟩
  have mem : (10001 : SporkId) ∈ (toyLoaded {2} (toySpork 1 5 10)).sporkIds := by decide
  rw [checkAndRemove, if_pos nonempty, checkSporks_stuck mem held (by decide)]
  rfl

end ButCore.Spork
