/-
# Truncation

`O_TRUNC` sets the size to zero and leaves the bytes in the data area.  A later
write through a descriptor that stands beyond the new end makes them part of the
file again.  Runs in which no write skips over such bytes read only what was
written since the last truncation.
-/

import Sugimotos.Fs.Files

namespace Sugimotos.Fs

open Sugimotos.Mm Sugimotos.Proc

/-- Inside its size a file holds what was written since it was last truncated. -/
def Clean (inodes : Inodes) (h : History) : Prop :=
  ∀ i, (inodes i).used = true → ∀ pos, pos < (inodes i).size →
    (inodes i).data pos = (writtenSince (h.incarnation i) pos h.events).getD 0

/-- Every byte a read returns was written since the file was last truncated, or
is zero. -/
def ReadsClean (t : Traced) : Prop :=
  ∀ fd buf len p i j b, getOpenFd fd t.sys.kernel = some (p, i) →
    (fsRead fd buf len t.sys).2.1[j]? = some b →
    b = (writtenSince (t.hist.opened p i) (((t.sys.kernel.procs p).fds i).offset + j)
      t.hist.events).getD 0

/-- A write, also one of no bytes, finds only zeros between the end of the file and the
position where it starts. -/
def NoStale (t : Traced) : FsOp → Prop
  | .fsWrite fd buf _ _ => ∀ p i slot, buf ≠ 0 → getOpenFd fd t.sys.kernel = some (p, i) →
      FileDesc.slot ((t.sys.kernel.procs p).fds i) = some slot →
      ((t.sys.kernel.procs p).fds i).flags &&& 3 = oWronly ∨
        ((t.sys.kernel.procs p).fds i).flags &&& 3 = oRdwr →
      writeOffset ((t.sys.kernel.procs p).fds i) (t.sys.inodes slot) < ramfsDataMax →
      ∀ pos, (t.sys.inodes slot).size ≤ pos →
        pos < writeOffset ((t.sys.kernel.procs p).fds i) (t.sys.inodes slot) →
        (t.sys.inodes slot).data pos = 0
  | _ => True

/-! ## One call -/

theorem Clean.create {inodes : Inodes} {h : History} (hc : Clean inodes h) (i : Fin ramfsMaxFiles)
    (name : List UInt8) :
    Clean (Function.update inodes i { RamfsInode.zero with used := true, name := name })
      (h.create i) := by
  intro j hj pos hpos
  by_cases hji : j = i
  · subst hji
    rw [Function.update_self] at hpos
    exact absurd hpos (Nat.not_lt_zero _)
  · rw [Function.update_of_ne hji] at hj hpos ⊢
    simp only [History.create, Function.update_of_ne hji]
    exact hc j hj pos hpos

theorem Clean.ensure {name : List UInt8} {flags : Nat} {inodes inodes' : Inodes} {h : History}
    {i : Fin ramfsMaxFiles} (hc : Clean inodes h)
    (hres : ensureRamfsInode name flags inodes = some (i, inodes')) :
    Clean inodes' (afterEnsure name inodes h i) := by
  unfold ensureRamfsInode at hres
  unfold afterEnsure
  cases hfind : findInodeByName inodes name with
  | some j =>
      rw [hfind] at hres
      cases hres
      exact hc
  | none =>
      rw [hfind] at hres
      dsimp only at hres
      split at hres
      · cases hres
      · cases halloc : allocInode inodes with
        | none =>
            rw [halloc] at hres
            cases hres
        | some j =>
            rw [halloc] at hres
            cases hres
            exact hc.create i name

theorem Clean.truncate {flags : Nat} {i : Fin ramfsMaxFiles} {inodes : Inodes} {h : History}
    (hok : InodesOk inodes h) (hi : (inodes i).used = true) (hc : Clean inodes h) :
    Clean (truncateIf flags i inodes) (afterTruncate flags i h) := by
  unfold truncateIf afterTruncate
  by_cases hflag : flags &&& oTrunc ≠ 0
  · rw [if_pos hflag, if_pos hflag]
    intro j hj pos hpos
    by_cases hji : j = i
    · subst hji
      rw [Function.update_self] at hpos
      exact absurd hpos (Nat.not_lt_zero _)
    · rw [Function.update_of_ne hji] at hj hpos ⊢
      have hother : h.incarnation i ≠ h.incarnation j :=
        fun heq => hji (hok.inc_inj i j hi hj heq).symm
      simp only [writtenSince]
      rw [if_neg hother]
      exact hc j hj pos hpos
  · rw [if_neg hflag, if_neg hflag]
    exact hc

theorem Clean.install {inodes : Inodes} {h : History} (hc : Clean inodes h) (k : Kernel)
    (file : Nat) : Clean inodes (h.install k file) := by
  unfold History.install
  split
  · exact hc
  · split <;> exact hc

theorem fsOpen_clean {t : Traced} (ht : FsInv t) (hc : Clean t.sys.inodes t.hist)
    (path : Option (List UInt8)) (flags : Nat) :
    Clean (fsOpen path flags t.sys).2.inodes (recordOpen path flags t) := by
  cases hname : normalizeName path with
  | none =>
      unfold fsOpen recordOpen
      rw [hname]
      exact hc
  | some name =>
      cases hens : ensureRamfsInode name flags t.sys.inodes with
      | none =>
          unfold fsOpen recordOpen
          rw [hname]
          dsimp only
          rw [hens]
          exact hc
      | some out =>
          obtain ⟨i, inodes⟩ := out
          obtain ⟨hok₁, hused₁, -⟩ :=
            ensureRamfsInode_spec ht.inodes (normalizeName_ok hname) hens
          rw [recordOpen_eq hname hens]
          unfold fsOpen
          rw [hname]
          dsimp only
          rw [hens]
          exact ((hc.ensure hens).truncate hok₁ hused₁).install _ _

/-- A write at `offset` keeps the file clean exactly if the bytes it skips are
zero. -/
theorem InodesOk.write_clean_iff {inodes : Inodes} {h : History} (hok : InodesOk inodes h)
    (hc : Clean inodes h) {i : Fin ramfsMaxFiles} (hi : (inodes i).used = true) (offset n : Nat)
    (src : Nat → UInt8) :
    Clean (Function.update inodes i { inodes i with
        data := storeBytes (inodes i).data offset n src
        size := if (inodes i).size < offset + n then offset + n else (inodes i).size })
      { h with events := writeEvents (h.incarnation i) offset n src ++ h.events } ↔
    ∀ pos, (inodes i).size ≤ pos → pos < offset → (inodes i).data pos = 0 := by
  have hskip : ∀ pos, ¬ (offset ≤ pos ∧ pos < offset + n) →
      writtenSince (h.incarnation i) pos
        (writeEvents (h.incarnation i) offset n src ++ h.events) =
      writtenSince (h.incarnation i) pos h.events := by
    intro pos hpos
    rw [writtenSince_append, lastWritten_writeEvents, if_neg fun hall => hpos hall.2]
    rfl
  constructor
  · intro hclean pos hsize hoffset
    have hin := hclean i (by rw [Function.update_self]; exact hi) pos
    rw [Function.update_self] at hin
    have hnew := hin (by dsimp only; split <;> omega)
    dsimp only at hnew
    rw [hskip pos (by omega), hok.beyond i hi pos hsize] at hnew
    have hsame : storeBytes (inodes i).data offset n src pos = (inodes i).data pos :=
      if_neg (by omega)
    rw [← hsame]
    exact hnew
  · intro hzero j hj pos hpos
    by_cases hji : j = i
    · subst hji
      rw [Function.update_self] at hpos ⊢
      dsimp only at hpos ⊢
      by_cases hin : offset ≤ pos ∧ pos < offset + n
      · rw [writtenSince_append, lastWritten_writeEvents, if_pos ⟨rfl, hin⟩]
        exact if_pos hin
      · rw [hskip pos hin]
        refine (if_neg hin).trans ?_
        by_cases hold : pos < (inodes j).size
        · exact hc j hi pos hold
        · rw [hok.beyond j hi pos (Nat.le_of_not_lt hold)]
          exact hzero pos (Nat.le_of_not_lt hold) (by split at hpos <;> omega)
    · rw [Function.update_of_ne hji] at hj hpos ⊢
      have hother : h.incarnation i ≠ h.incarnation j :=
        fun heq => hji (hok.inc_inj i j hi hj heq).symm
      rw [writtenSince_append, lastWritten_writeEvents, if_neg fun hall => hother hall.1]
      exact hc j hj pos hpos

theorem fsRead_inodes (fd : Int) (buf len : Nat) (s : System) :
    (fsRead fd buf len s).2.2.inodes = s.inodes := by
  unfold fsRead
  split
  · rfl
  · split
    · rfl
    · dsimp only
      split
      · rfl
      · split
        · rfl
        · split <;> rfl

theorem fsWrite_clean {t : Traced} (ht : FsInv t) (hc : Clean t.sys.inodes t.hist) (fd : Int)
    (buf : UInt32) (src : Nat → UInt8) (len : UInt32)
    (hstale : NoStale t (.fsWrite fd buf src len)) :
    Clean (fsWrite fd buf.toNat src len.toNat t.sys).2.inodes
      (recordWrite fd buf.toNat src len.toNat t) := by
  have hcase := fsWrite_case fd buf.toNat src len.toNat t.sys
  generalize hres : fsWrite fd buf.toNat src len.toNat t.sys = res at hcase
  cases hcase with
  | refused =>
      rw [recordWrite_none (by rw [hres]; rfl)]
      exact hc
  | full hget hslot hfull =>
      rw [recordWrite_none (by rw [hres]; rfl)]
      exact hc
  | stored hget hslot hoffset hn hroom hbuf hmode =>
      rename_i p i slot offset n
      obtain ⟨-, hused⟩ := getOpenFd_some hget
      obtain ⟨slot', hslot', hslotUsed, hinc, -⟩ := ht.descs.refers p i hused
      rw [hslot] at hslot'
      cases hslot'
      rw [recordWrite_eq hget hslot, hres, ← hoffset, ← hinc]
      refine (ht.inodes.write_clean_iff hc hslotUsed offset n src).mpr fun pos hsize hpos => ?_
      subst hoffset
      have hnull : buf ≠ 0 := fun hzero => hbuf (by rw [hzero]; rfl)
      exact hstale p i slot hnull hget hslot hmode hroom pos hsize hpos

/-! ## Runs -/

theorem fsStep_clean {L : Layout} {op : FsOp} {t t' : Traced} (ht : FsInv t)
    (hc : Clean t.sys.inodes t.hist) (hstale : NoStale t op) (h : fsStep L op t = .ok t') :
    Clean t'.sys.inodes t'.hist := by
  cases op with
  | kernel op =>
      obtain ⟨k, -, rfl⟩ := map_ok h
      exact hc
  | fsOpen path flags =>
      cases h
      exact fsOpen_clean ht hc path flags.toNat
  | fsClose fd =>
      cases h
      unfold fsClose
      split <;> exact hc
  | fsRead fd buf len =>
      cases h
      rw [show (fsRead fd buf.toNat len.toNat t.sys).2.2.inodes = t.sys.inodes from fsRead_inodes ..]
      exact hc
  | fsWrite fd buf src len =>
      cases h
      exact fsWrite_clean ht hc fd buf src len hstale
  | fsUnlink path =>
      cases h
      unfold fsUnlink
      split
      · exact hc
      · split
        · exact hc
        · rename_i i _
          intro j hj pos hpos
          have hji : j ≠ i := by
            rintro rfl
            dsimp only at hj
            rw [Function.update_self] at hj
            cases hj
          dsimp only at hj hpos ⊢
          rw [Function.update_of_ne hji] at hj hpos ⊢
          exact hc j hj pos hpos
  | fsRename oldPath newPath =>
      cases h
      unfold fsRename
      split
      · split
        · exact hc
        · split
          · exact hc
          · split
            · exact hc
            · rename_i i _ _ _
              intro j hj pos hpos
              dsimp only at hj hpos ⊢
              by_cases hji : j = i
              · subst hji
                rw [Function.update_self] at hj hpos ⊢
                exact hc j hj pos hpos
              · rw [Function.update_of_ne hji] at hj hpos ⊢
                exact hc j hj pos hpos
      · exact hc

/-- The file stored by `fs_init` holds what counts as written. -/
theorem fsInit_clean : Clean fsInit .init := by
  intro i hi pos hpos
  have hzero : i = 0 := by
    by_contra hne
    unfold fsInit at hi
    rw [Function.update_of_ne hne] at hi
    cases hi
  subst hzero
  have hlen : pos < readmeText.length := hpos
  have hsince : writtenSince 0 pos (writeEvents 0 0 readmeText.length
      (fun j => readmeText.getD j 0) ++ []) = some (readmeText.getD pos 0) := by
    rw [writtenSince_append, lastWritten_writeEvents, if_pos ⟨rfl, Nat.zero_le _, by omega⟩]
    rfl
  rw [List.append_nil] at hsince
  simp only [History.init]
  rw [hsince]
  rfl

theorem FsReachable.clean {L : Layout} {t : Traced} (h : FsReachable L NoStale t) :
    Clean t.sys.inodes t.hist := by
  induction h with
  | boot hboot => exact fsInit_clean
  | step op ht hop hok hstep ih => exact fsStep_clean ht.inv ih hok hstep

/-- In every run whose writes never skip over bytes left by a truncation, a read
returns what was written since the last truncation and zero elsewhere. -/
theorem reads_clean_of_noStale {L : Layout} {t : Traced} (ht : FsReachable L NoStale t) :
    ReadsClean t := by
  intro fd buf len p i j b hget hb
  obtain ⟨-, hused⟩ := getOpenFd_some hget
  obtain ⟨slot, hslot, hslotUsed, hinc, -⟩ := ht.inv.descs.refers p i hused
  obtain ⟨hbyte, hpos⟩ := fsRead_getElem hget hslot hb
  rw [hbyte, ht.clean slot hslotUsed _ hpos, hinc]

/-- A write that starts within the file skips nothing. -/
def startsInside (t : Traced) : FsOp → Bool
  | .fsWrite fd _ _ _ =>
      match getOpenFd fd t.sys.kernel with
      | none => true
      | some (p, i) =>
          match FileDesc.slot ((t.sys.kernel.procs p).fds i) with
          | none => true
          | some slot =>
              decide (writeOffset ((t.sys.kernel.procs p).fds i) (t.sys.inodes slot) ≤
                (t.sys.inodes slot).size)
  | _ => true

theorem noStale_of_startsInside (t : Traced) (op : FsOp) (h : startsInside t op = true) :
    NoStale t op := by
  cases op with
  | fsWrite fd buf src len =>
      intro p i slot _ hget hslot _ _ pos hsize hpos
      simp only [startsInside, hget, hslot] at h
      have hle := of_decide_eq_true h
      omega
  | _ => trivial

/-- A file written, truncated and written again from its start. -/
def rewriteOps : List FsOp :=
  [.kernel (.createUserProcess smallEntry), .kernel (.switchTo 1),
    .fsOpen (some (bytesOf "f")) 0x103, .fsWrite 0 1 (fun _ => 65) 4,
    .fsOpen (some (bytesOf "f")) 0x203, .fsWrite 1 1 (fun _ => 66) 1]

theorem reads_clean_of_noStale_rewrite :
    ∃ t, smallFs startsInside rewriteOps = some t ∧ ReadsClean t := by
  have hsome : (smallFs startsInside rewriteOps).isSome = true := by decide +kernel
  obtain ⟨t, ht⟩ := Option.isSome_iff_exists.mp hsome
  exact ⟨t, ht, reads_clean_of_noStale (smallFs_reachable noStale_of_startsInside ht)⟩

/-- A file is written through one descriptor, truncated by opening it again, and
written once more through the first descriptor, which stands at position 4. -/
def staleOps : List FsOp :=
  [.kernel (.createUserProcess smallEntry), .kernel (.switchTo 1),
    .fsOpen (some (bytesOf "f")) 0x103, .fsWrite 0 1 (fun _ => 65) 4,
    .fsOpen (some (bytesOf "f")) 0x203, .fsWrite 0 1 (fun _ => 66) 1]

/-- The second descriptor then reads a byte from before the truncation. -/
theorem reads_clean_fails :
    ¬ ∀ t, FsReachable smallLayout (fun _ _ => True) t → ReadsClean t := by
  intro hall
  have hrun : (smallFs (fun _ _ => true) staleOps).map (fun t => (getOpenFd 1 t.sys.kernel,
      (fsRead 1 1 5 t.sys).2.1[0]?, writtenSince (t.hist.opened 1 1)
        (((t.sys.kernel.procs 1).fds 1).offset + 0) t.hist.events)) =
      some (some (1, 1), some 65, none) := by decide +kernel
  obtain ⟨t, ht, hvals⟩ := Option.map_eq_some_iff.mp hrun
  simp only [Prod.mk.injEq] at hvals
  obtain ⟨hget, hbyte, hsince⟩ := hvals
  have hread := hall t (smallFs_reachable (fun _ _ _ => trivial) ht) 1 1 5 1 1 0 65 hget hbyte
  rw [hsince] at hread
  cases hread

end Sugimotos.Fs
