import Relis.Code.Vfs
import Relis.Lib.Fields
import Relis.Sched.Run

/-!
# Paths

`vfs_open` goes to a child for every component. A component is copied into 64 bytes first,
and nobody looks at its length.
-/

open Relis.Code Relis.Run Relis.Fields

namespace Relis.Files

variable {v : Vfs} {k k1 : Kernel} {d root f : Nat} {name : List (BitVec 8)}

/-! ## What a path means -/

def components (path : CString) : List (List (BitVec 8)) := fields 0x2F path.bytes

def child (v : Vfs) (d : Nat) (name : List (BitVec 8)) : Option Nat :=
  (v.dentry d).d_children.find? fun e => (v.dentry e).d_name = name

def resolve (v : Vfs) (d : Nat) (names : List (List (BitVec 8))) : Option Nat :=
  names.foldlM (child v) d

@[simp] theorem resolve_nil : resolve v d [] = some d := rfl

@[simp] theorem resolve_cons (names : List (List (BitVec 8))) :
    resolve v d (name :: names) = (child v d name).bind fun e => resolve v e names := rfl

/-- The names lead from `d` through all before `c`. -/
def Comes (v : Vfs) (d : Nat) (names : List (List (BitVec 8))) (c : List (BitVec 8)) : Prop :=
  ∃ before after e, names = before ++ c :: after ∧ resolve v d before = some e

theorem comes_nil {c : List (BitVec 8)} : ¬ Comes v d [] c := by
  rintro ⟨before, after, e, h, -⟩
  cases before <;> cases h

theorem comes_cons {names : List (List (BitVec 8))} {c : List (BitVec 8)} :
    Comes v d (name :: names) c ↔ c = name ∨ ∃ e, child v d name = some e ∧ Comes v e names c := by
  constructor
  · rintro ⟨before, after, e, h, hres⟩
    cases before with
    | nil =>
      cases h
      exact .inl rfl
    | cons b before =>
      cases h
      rw [resolve_cons, Option.bind_eq_some_iff] at hres
      obtain ⟨e', he', hres⟩ := hres
      exact .inr ⟨e', he', before, after, e, rfl, hres⟩
  · rintro (rfl | ⟨e, he, before, after, e', rfl, hres⟩)
    · exact ⟨[], names, d, rfl, rfl⟩
    · refine ⟨name :: before, after, e', rfl, ?_⟩
      rw [resolve_cons, he]
      exact hres

theorem resolve_eq_none_iff {names : List (List (BitVec 8))} : resolve v d names = none ↔
    ∃ before c after e, names = before ++ c :: after ∧ resolve v d before = some e ∧
      child v e c = none := by
  induction names generalizing d with
  | nil =>
    simp
  | cons n names ih =>
    rw [resolve_cons]
    cases hn : child v d n with
    | none => exact ⟨fun _ => ⟨[], n, names, d, rfl, rfl, hn⟩, fun _ => rfl⟩
    | some e =>
      rw [Option.bind_some, ih]
      constructor
      · rintro ⟨before, c, after, e', rfl, hres, hc⟩
        exact ⟨n :: before, c, after, e', rfl, by simpa [hn] using hres, hc⟩
      · rintro ⟨before, c, after, e', h, hres, hc⟩
        cases before with
        | nil =>
          cases h
          cases hres
          cases hn.symm.trans hc
        | cons b before =>
          cases h
          rw [resolve_cons, hn, Option.bind_some] at hres
          exact ⟨before, c, after, e', rfl, hres, hc⟩

/-! ## The loop -/

theorem vfs_child_of_ne (h : name ≠ []) : vfs_child v d name = child v d name := if_neg h

/-- The comparison of names is `kstrcmp`. -/
theorem vfs_child_kstrcmp (hname : 0 ∉ name)
    (hnames : ∀ e ∈ (v.dentry d).d_children, 0 ∉ (v.dentry e).d_name) (h : name ≠ []) :
    vfs_child v d name = (v.dentry d).d_children.find? fun e => kstrcmp (v.dentry e).d_name name =
      0 := by
  rw [vfs_child_of_ne h]
  refine List.find?_congr fun e he => ?_
  rw [decide_eq_decide, kstrcmp_eq_zero (hnames e he) hname]

theorem slash_concat {c : BitVec 8} (hname : 0x2F ∉ name) (hc : c ≠ 0x2F) : 0x2F ∉ name ++ [c] := by
  rw [List.mem_append, List.mem_singleton, not_or]
  exact ⟨hname, hc.symm⟩

theorem vfs_walk_eq {path : List (BitVec 8)} (hname : 0x2F ∉ name)
    (hshort : ∀ c, Comes v d (fields 0x2F (name ++ path)) c → c.length < NAME_SIZE) :
    vfs_walk v d name path = .ok (resolve v d (fields 0x2F (name ++ path))) := by
  induction path generalizing d name with
  | nil =>
    rw [List.append_nil] at hshort ⊢
    by_cases hnil : name = []
    · subst hnil
      rfl
    · rw [fields_of_notMem hname hnil] at hshort ⊢
      rw [vfs_walk, if_pos (hshort name (comes_cons.mpr (.inl rfl))), vfs_child_of_ne hnil, resolve_cons]
      simp
  | cons c path ih =>
    have hfirst : name.length < NAME_SIZE := by
      by_cases hnil : name = []
      · simp [hnil, NAME_SIZE]
      · obtain ⟨more, names, hmore⟩ := fields_first hname hnil (c :: path)
        have := hshort (name ++ more) (by rw [hmore]; exact comes_cons.mpr (.inl rfl))
        rw [List.length_append] at this
        omega
    rw [vfs_walk, if_pos hfirst]
    by_cases hc : c = 0x2F
    · subst hc
      rw [if_pos rfl]
      rw [fields_append_cons] at hshort ⊢
      by_cases hnil : name = []
      · subst hnil
        exact ih List.not_mem_nil hshort
      · rw [fields_of_notMem hname hnil, List.singleton_append] at hshort ⊢
        rw [vfs_child_of_ne hnil, resolve_cons]
        cases he : child v d name with
        | none => rfl
        | some e =>
          exact ih List.not_mem_nil fun c' hc' => hshort c' (comes_cons.mpr (.inr ⟨e, he, hc'⟩))
    · rw [if_neg hc]
      rw [List.append_cons name c path] at hshort ⊢
      exact ih (slash_concat hname hc) hshort

theorem length_mem_writes (path : List (BitVec 8)) : name.length ∈ vfs_walk_writes v d name path := by
  cases path with
  | nil => exact List.mem_singleton_self _
  | cons c path => exact List.mem_cons_self

theorem walk_writes_iff {path : List (BitVec 8)} (hname : 0x2F ∉ name) :
    (∀ i ∈ vfs_walk_writes v d name path, i < NAME_SIZE) ↔
      ∀ c, Comes v d (fields 0x2F (name ++ path)) c → c.length < NAME_SIZE := by
  induction path generalizing d name with
  | nil =>
    rw [vfs_walk_writes, List.append_nil]
    by_cases hnil : name = []
    · simp [hnil, comes_nil, NAME_SIZE]
    · rw [fields_of_notMem hname hnil]
      simp [comes_cons, comes_nil]
  | cons c path ih =>
    rw [vfs_walk_writes, List.forall_mem_cons]
    by_cases hc : c = 0x2F
    · subst hc
      rw [if_pos rfl, fields_append_cons]
      by_cases hnil : name = []
      · subst hnil
        simpa [vfs_child, NAME_SIZE] using @ih d [] List.not_mem_nil
      · rw [fields_of_notMem hname hnil, List.singleton_append, vfs_child_of_ne hnil]
        simp only [comes_cons, forall_eq_or_imp]
        refine and_congr_right fun _ => ?_
        cases he : child v d name with
        | none => simp
        | some e => simpa using @ih e [] List.not_mem_nil
    · rw [if_neg hc, List.append_cons name c path, ← ih (slash_concat hname hc)]
      refine and_iff_right_of_imp fun h => ?_
      have hlast := h _ (length_mem_writes path)
      rw [List.length_append] at hlast
      omega

/-- The walk stops with an overrun exactly when it has an index behind `name`. -/
theorem vfs_walk_overrun_iff (path : List (BitVec 8)) :
    vfs_walk v d name path = .error .overrun ↔
      ∃ i ∈ vfs_walk_writes v d name path, NAME_SIZE ≤ i := by
  induction path generalizing d name with
  | nil =>
    by_cases hlen : name.length < NAME_SIZE
    · simp [vfs_walk, vfs_walk_writes, hlen]
    · simp [vfs_walk, vfs_walk_writes, hlen, Nat.not_lt.mp hlen]
  | cons c path ih =>
    rw [vfs_walk, vfs_walk_writes, List.exists_mem_cons_iff]
    by_cases hlen : name.length < NAME_SIZE
    · rw [if_pos hlen, or_iff_right (Nat.not_le.mpr hlen)]
      by_cases hc : c = 0x2F
      · rw [if_pos hc, if_pos hc]
        cases vfs_child v d name with
        | none => simp
        | some e => exact ih
      · rw [if_neg hc, if_neg hc]
        exact ih
    · rw [if_neg hlen]
      exact iff_of_true rfl (.inl (Nat.not_lt.mp hlen))

/-! ## `vfs_open` -/

theorem abs_path {path : CString} (habs : path.bytes.head? = some 0x2F) :
    ∃ rest, path.bytes = 0x2F :: rest := by
  cases hp : path.bytes with
  | nil => simp [hp] at habs
  | cons c rest =>
    rw [hp, List.head?_cons, Option.some.injEq] at habs
    exact ⟨rest, by rw [habs]⟩

theorem vfs_lookup_eq {path : CString} (hroot : v.root_dentry = some root)
    (habs : path.bytes.head? = some 0x2F)
    (hshort : ∀ c, Comes v root (components path) c → c.length < NAME_SIZE) :
    vfs_lookup v path = .ok (resolve v root (components path)) := by
  obtain ⟨rest, hrest⟩ := abs_path habs
  have hcomp : components path = fields 0x2F ([] ++ rest) := by
    rw [components, hrest, fields_cons_self, List.nil_append]
  rw [hcomp] at hshort ⊢
  unfold vfs_lookup
  rw [hroot, hrest]
  exact vfs_walk_eq List.not_mem_nil hshort

def OneSlashMore (path more : CString) : Prop :=
  (∃ a b, path.bytes = a ++ 0x2F :: b ∧ more.bytes = a ++ 0x2F :: 0x2F :: b) ∨
    more.bytes = path.bytes ++ [0x2F]

theorem OneSlashMore.components {path more : CString} (h : OneSlashMore path more) :
    Files.components more = Files.components path := by
  unfold Files.components
  rcases h with ⟨a, b, hpath, hmore⟩ | hmore
  · rw [hpath, hmore, fields_double]
  · rw [hmore, fields_concat_self]

theorem OneSlashMore.head? {path more : CString} (h : OneSlashMore path more)
    (habs : path.bytes.head? = some 0x2F) : more.bytes.head? = some 0x2F := by
  rcases h with ⟨a, b, hpath, hmore⟩ | hmore
  · rw [hpath] at habs
    rw [hmore]
    cases a with
    | nil => rfl
    | cons c a => exact habs
  · obtain ⟨rest, hrest⟩ := abs_path habs
    rw [hmore, hrest]
    rfl

theorem vfs_open_of_resolve {path : CString} (hroot : v.root_dentry = some root)
    (habs : path.bytes.head? = some 0x2F) (hshort : ∀ c ∈ components path, c.length < NAME_SIZE)
    (hmem : kmalloc_object k sizeof_file = .ok (f, k1)) :
    vfs_open v k path = .ok (match resolve v root (components path) with
      | none => (none, k)
      | some d =>
        (some f,
        { k1 with file := Function.update k1.file f ⟨some d, (v.dentry d).d_inode, 0⟩ })) := by
  have hlookup : vfs_lookup v path = .ok (resolve v root (components path)) := by
    refine vfs_lookup_eq hroot habs ?_
    rintro c ⟨before, after, e, h, -⟩
    exact hshort c (by simp [h])
  unfold vfs_open
  rw [hlookup]
  change (match resolve v root (components path) with | none => _ | some d => _) = _
  cases resolve v root (components path) with
  | none => rfl
  | some d =>
    simp only [hmem]
    rfl

/-- `vfs_open` gives null exactly when some component names no child where the lookup has come
to. Else it gives a new file for the dentry that the components lead to. -/
theorem vfs_open_follows_components {path : CString} (hroot : v.root_dentry = some root)
    (habs : path.bytes.head? = some 0x2F) (hshort : ∀ c ∈ components path, c.length < NAME_SIZE)
    (hmem : kmalloc_object k sizeof_file = .ok (f, k1)) :
    ((∃ k', vfs_open v k path = .ok (none, k')) ↔ ∃ before c after e,
      components path = before ++ c :: after ∧ resolve v root before = some e ∧ child v e c = none) ∧
    (∀ d, resolve v root (components path) = some d → vfs_open v k path =
      .ok (some f, { k1 with file := Function.update k1.file f ⟨some d, (v.dentry d).d_inode, 0⟩ })) ∧
    ∀ more, OneSlashMore path more → vfs_open v k more = vfs_open v k path := by
  have hopen := vfs_open_of_resolve hroot habs hshort hmem
  refine ⟨?_, ?_, ?_⟩
  · rw [hopen, ← resolve_eq_none_iff]
    cases resolve v root (components path) with
    | none => simp
    | some d => simp
  · intro d hd
    rw [hopen, hd]
  · intro more hmore
    have hcomp := hmore.components
    rw [hopen, vfs_open_of_resolve hroot (hmore.head? habs) (by rwa [hcomp]) hmem, hcomp]

def smallVfs : Vfs where
  root_dentry := some 0
  dentry := fun d => if d = 0 then ⟨ascii "/", none, [16]⟩ else ⟨ascii "a", some 32, []⟩

def smallPath : CString := ⟨ascii "/a/", by decide⟩

theorem components_smallPath : components smallPath = [ascii "a"] := by decide

theorem vfs_open_follows_small :
    ∃ k1 : Kernel, vfs_open smallVfs (Kernel.boot Sched.bareMm 0) smallPath =
    .ok (some 0, { k1 with file := Function.update k1.file 0 ⟨some 16, some 32, 0⟩ }) := by
  refine ⟨_, (vfs_open_follows_components (show smallVfs.root_dentry = some 0 from rfl)
    (show smallPath.bytes.head? = _ from rfl) ?_ rfl).2.1 16 ?_⟩
  · rw [components_smallPath]
    decide
  · rw [components_smallPath]
    decide

/-! ## The size of `name` -/

theorem vfs_open_writes_iff {path : CString} (hroot : v.root_dentry = some root)
    (habs : path.bytes.head? = some 0x2F) :
    (∀ i ∈ vfs_open_writes v path, i < NAME_SIZE) ↔
      ∀ c, Comes v root (components path) c → c.length < NAME_SIZE := by
  obtain ⟨rest, hrest⟩ := abs_path habs
  unfold vfs_open_writes components
  rw [hroot, hrest, fields_cons_self]
  exact walk_writes_iff List.not_mem_nil

theorem vfs_lookup_overrun_iff (path : CString) :
    vfs_lookup v path = .error .overrun ↔ ∃ i ∈ vfs_open_writes v path, NAME_SIZE ≤ i := by
  unfold vfs_lookup vfs_open_writes
  cases v.root_dentry with
  | none => simp
  | some root =>
    cases path.bytes with
    | nil => simp
    | cons c rest =>
      simp only
      split_ifs
      · exact vfs_walk_overrun_iff rest
      · simp

def Looked (v : Vfs) (path : CString) (root : Nat) : Prop :=
  v.root_dentry = some root ∧ path.bytes.head? = some 0x2F

def TooLong (v : Vfs) (path : CString) : Prop :=
  ∃ root c, Looked v path root ∧ Comes v root (components path) c ∧ NAME_SIZE ≤ c.length

/-- Every index is in `name`, and a path with a component that is too long gets null. -/
def NameSafe (v : Vfs) (path : CString) : Prop :=
  (∀ i ∈ vfs_open_writes v path, i < NAME_SIZE) ∧ (TooLong v path → vfs_lookup v path = .ok none)

theorem not_looked {path : CString} (h : ∀ root, ¬ Looked v path root) :
    vfs_open_writes v path = [] := by
  unfold vfs_open_writes
  cases hroot : v.root_dentry with
  | none => rfl
  | some root =>
    cases hp : path.bytes with
    | nil => rfl
    | cons c rest =>
      have hc : c ≠ 0x2F := by
        rintro rfl
        exact h root ⟨hroot, by rw [hp]; rfl⟩
      exact if_neg hc

/-- The writes stay in `name` exactly when no component that the lookup comes to is too long. -/
theorem name_safe_iff (v : Vfs) (path : CString) : NameSafe v path ↔ ¬ TooLong v path := by
  by_cases h : ∃ root, Looked v path root
  · obtain ⟨root, hroot, habs⟩ := h
    have hwrites : (∀ i ∈ vfs_open_writes v path, i < NAME_SIZE) ↔ ¬ TooLong v path := by
      rw [vfs_open_writes_iff hroot habs]
      constructor
      · rintro hall ⟨root', c, ⟨hroot', -⟩, hcomes, hlong⟩
        cases hroot.symm.trans hroot'
        exact absurd (hall c hcomes) (Nat.not_lt.mpr hlong)
      · intro hnone c hcomes
        by_contra hlong
        exact hnone ⟨root, c, ⟨hroot, habs⟩, hcomes, Nat.not_lt.mp hlong⟩
    exact ⟨fun h => hwrites.mp h.1, fun h => ⟨hwrites.mpr h, fun hlong => absurd hlong h⟩⟩
  · rw [not_exists] at h
    have hlong : ¬ TooLong v path := fun ⟨root, _, hlooked, _⟩ => h root hlooked
    exact iff_of_true ⟨by simp [not_looked h], fun hl => absurd hl hlong⟩ hlong

theorem small_name_safe : NameSafe smallVfs smallPath := by
  refine (name_safe_iff _ _).mpr ?_
  rintro ⟨root, c, -, ⟨before, after, e, h, -⟩, hlong⟩
  have hc : c ∈ [ascii "a"] := by
    rw [← components_smallPath, h]
    simp
  rw [List.mem_singleton.mp hc] at hlong
  exact absurd hlong (by decide)

def longPath : CString := ⟨0x2F :: List.replicate 64 0x61, by decide⟩

theorem long_path_overruns : TooLong smallVfs longPath ∧ 64 ∈ vfs_open_writes smallVfs longPath ∧
    vfs_lookup smallVfs longPath = .error .overrun := by
  have hcomp : components longPath = [List.replicate 64 0x61] := by decide
  refine ⟨⟨0, List.replicate 64 0x61, ⟨rfl, rfl⟩, ?_, by decide⟩, by decide, by rfl⟩
  rw [hcomp]
  exact ⟨[], [], 0, rfl, rfl⟩

end Relis.Files
