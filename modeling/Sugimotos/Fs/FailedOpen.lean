/-
# Failed opens

`fs_open` creates or truncates the file before it looks for a free descriptor.
When there is none it returns `-1` with the file already created or emptied.
This module says for which calls a failure leaves no trace.
-/

import Sugimotos.Fs.Files

namespace Sugimotos.Fs

open Sugimotos.Mm Sugimotos.Proc

/-- The inodes and every descriptor table are the same in two states. -/
structure SameFiles (s s' : System) : Prop where
  inodes : s'.inodes = s.inodes
  fds : ∀ p, (s'.kernel.procs p).fds = (s.kernel.procs p).fds

/-- If `fs_open` returns `-1`, it has changed no inode and no descriptor. -/
def FailsClean (path : Option (List UInt8)) (flags : Nat) (s : System) : Prop :=
  (fsOpen path flags s).1 = -1 → SameFiles s (fsOpen path flags s).2

/-- The current process has a descriptor to spare. -/
def hasFreeFd (k : Kernel) : Prop :=
  ∃ p fd, k.currentProc = some p ∧ allocFd (k.procs p) = some fd

/-- What the steps before `install_fd` change of a file: nothing, if the file is
there and is not emptied by `O_TRUNC`, or if it is missing and `O_CREAT` is not
given or there is no inode for it. -/
def LeavesInodes (name : List UInt8) (flags : Nat) (inodes : Inodes) : Prop :=
  match findInodeByName inodes name with
  | some i => flags &&& oTrunc = 0 ∨ (inodes i).size = 0
  | none => flags &&& oCreat = 0 ∨ allocInode inodes = none

/-- The calls that cannot fail after a change. -/
def OpenSafe (path : Option (List UInt8)) (flags : Nat) (s : System) : Prop :=
  ∀ name, normalizeName path = some name →
    hasFreeFd s.kernel ∨ LeavesInodes name flags s.inodes

theorem SameFiles.refl (s : System) : SameFiles s s := ⟨rfl, fun _ => rfl⟩

/-- `install_fd` fails exactly when there is no free descriptor, and then changes
nothing. -/
theorem installFd_cases (inode : Int) (flags offset : Nat) (k : Kernel) :
    (hasFreeFd k ∧ 0 ≤ (installFd inode flags offset k).1) ∨
      (¬ hasFreeFd k ∧ installFd inode flags offset k = (-1, k)) := by
  unfold installFd
  cases hcur : k.currentProc with
  | none =>
      right
      refine ⟨?_, rfl⟩
      rintro ⟨p, fd, hp, -⟩
      rw [hcur] at hp
      cases hp
  | some p =>
      dsimp only
      cases hfd : allocFd (k.procs p) with
      | none =>
          right
          refine ⟨?_, rfl⟩
          rintro ⟨q, fd, hq, hfree⟩
          rw [hcur] at hq
          obtain rfl := Option.some.inj hq
          rw [hfd] at hfree
          cases hfree
      | some fd => exact .inl ⟨⟨p, fd, hcur, hfd⟩, Int.natCast_nonneg _⟩

/-- Emptying a file shows in the inodes unless it was empty. -/
theorem truncateIf_eq_self_iff {flags : Nat} {i : Fin ramfsMaxFiles} {inodes : Inodes} :
    truncateIf flags i inodes = inodes ↔ flags &&& oTrunc = 0 ∨ (inodes i).size = 0 := by
  unfold truncateIf
  by_cases htrunc : flags &&& oTrunc = 0
  · rw [if_neg (by rw [htrunc]; simp)]
    exact iff_of_true rfl (.inl htrunc)
  · rw [if_pos htrunc, Function.update_eq_self_iff]
    constructor
    · intro heq
      right
      rw [← heq]
    · intro hsize
      rw [← hsize.resolve_left htrunc]

/-- The inodes come through both steps unchanged exactly in the listed cases. -/
theorem leavesInodes_iff {name : List UInt8} {flags : Nat} {inodes inodes' : Inodes}
    {i : Fin ramfsMaxFiles} (hens : ensureRamfsInode name flags inodes = some (i, inodes')) :
    truncateIf flags i inodes' = inodes ↔ LeavesInodes name flags inodes := by
  unfold ensureRamfsInode at hens
  unfold LeavesInodes
  cases hfind : findInodeByName inodes name with
  | some j =>
      rw [hfind] at hens
      obtain ⟨rfl, rfl⟩ := Prod.mk.inj (Option.some.inj hens)
      exact truncateIf_eq_self_iff
  | none =>
      rw [hfind] at hens
      dsimp only at hens ⊢
      by_cases hcreat : flags &&& oCreat = 0
      · rw [if_pos hcreat] at hens
        cases hens
      rw [if_neg hcreat] at hens
      cases halloc : allocInode inodes with
      | none =>
          rw [halloc] at hens
          cases hens
      | some j =>
          rw [halloc] at hens
          obtain ⟨rfl, rfl⟩ := Prod.mk.inj (Option.some.inj hens)
          have hfree := allocInode_some halloc
          refine iff_of_false ?_ (by simp [hcreat])
          -- The slot of the new file was unused and is used now.
          intro heq
          have hused := congrArg RamfsInode.used (congrFun heq j)
          rw [hfree] at hused
          unfold truncateIf at hused
          split at hused <;> simp at hused

/-- A failed `fs_open` leaves the inodes and all descriptors as they were exactly
when a descriptor is free or the steps before `install_fd` change nothing. -/
theorem failsClean_iff (path : Option (List UInt8)) (flags : Nat) (s : System) :
    FailsClean path flags s ↔ OpenSafe path flags s := by
  unfold FailsClean OpenSafe
  cases hname : normalizeName path with
  | none =>
      unfold fsOpen
      rw [hname]
      exact iff_of_true (fun _ => SameFiles.refl s) fun _ h => by cases h
  | some name =>
      simp only [Option.some.injEq, forall_eq']
      cases hens : ensureRamfsInode name flags s.inodes with
      | none =>
          have hleaves : LeavesInodes name flags s.inodes := by
            unfold ensureRamfsInode at hens
            unfold LeavesInodes
            cases hfind : findInodeByName s.inodes name with
            | some j =>
                rw [hfind] at hens
                cases hens
            | none =>
                rw [hfind] at hens
                dsimp only at hens ⊢
                split at hens
                · rename_i hcreat
                  exact Or.inl hcreat
                · split at hens
                  · rename_i halloc
                    exact Or.inr halloc
                  · cases hens
          unfold fsOpen
          rw [hname]
          dsimp only
          rw [hens]
          exact iff_of_true (fun _ => SameFiles.refl s) (.inr hleaves)
      | some out =>
          obtain ⟨i, inodes⟩ := out
          rw [← leavesInodes_iff hens]
          unfold fsOpen
          rw [hname]
          dsimp only
          rw [hens]
          dsimp only
          rcases installFd_cases (i.val : Int) flags
              (if flags &&& oAppend ≠ 0 then (truncateIf flags i inodes i).size else 0) s.kernel
            with ⟨hfree, hfd⟩ | ⟨hfull, hfd⟩
          · refine iff_of_true (fun hfail => ?_) (.inl hfree)
            rw [hfail] at hfd
            exact absurd hfd (by decide)
          · rw [hfd]
            constructor
            · intro hclean
              exact .inr (hclean rfl).inodes
            · intro hsafe _
              exact ⟨hsafe.resolve_left hfull, fun _ => rfl⟩

/-- A process opens the first file until its descriptors are used up. -/
def fullTableOps : List FsOp :=
  [.kernel (.createUserProcess smallEntry), .kernel (.switchTo 1)] ++
    List.replicate fdMax (.fsOpen (some (bytesOf "README")) 1)

/-- Opening it once more with `O_TRUNC` fails and empties the file. -/
theorem failed_open_truncates :
    ¬ ∀ t, FsReachable smallLayout (fun _ _ => True) t →
      ∀ path (flags : UInt32), FailsClean path flags.toNat t.sys := by
  intro hall
  have hrun : (smallFs (fun _ _ => true) fullTableOps).map (fun t =>
      ((fsOpen (some (bytesOf "README")) 0x203 t.sys).1, (t.sys.inodes 0).size,
        ((fsOpen (some (bytesOf "README")) 0x203 t.sys).2.inodes 0).size)) =
      some (-1, 12, 0) := by decide +kernel
  obtain ⟨t, ht, hvals⟩ := Option.map_eq_some_iff.mp hrun
  simp only [Prod.mk.injEq] at hvals
  obtain ⟨hfail, hbefore, hafter⟩ := hvals
  have hclean := hall t (smallFs_reachable (fun _ _ _ => trivial) ht) (some (bytesOf "README"))
    0x203 hfail
  have hsame := congrArg RamfsInode.size (congrFun hclean.inodes 0)
  rw [show (0x203 : UInt32).toNat = 0x203 from rfl] at hsame
  omega

end Sugimotos.Fs
