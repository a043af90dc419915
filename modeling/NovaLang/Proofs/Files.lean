import NovaLang.Files
import Mathlib.Data.List.Infix
import Mathlib.Data.String.Basic

namespace NovaLang

/-! # What lies at a path

A path that leads to a file goes through directories to the name of the file. Writing
there changes what lies there and nothing else, as long as the directories on the way are
there already.
-/

namespace Path

theorem splitOnAux_eq {cs ds : List Char} (h : '/' ∉ ds) :
    String.splitOnAux (String.ofList (cs ++ ds)) "/" 0 ⟨String.utf8Len cs⟩ 0 [] =
      [String.ofList (cs ++ ds)] := by
  -- on what is behind the position; in front of it there is no slash
  induction ds generalizing cs with
  | nil =>
      have hend := (String.atEnd_of_valid cs []).mpr rfl
      have hall := String.extract_of_valid [] cs []
      simp only [List.nil_append, String.utf8Len_nil, Nat.zero_add] at hall
      rw [String.splitOnAux, if_pos hend]
      exact congrArg (fun s => [s]) (hall.trans (by rw [List.append_nil]))
  | cons d ds ih =>
      have hmore : ¬ String.Pos.Raw.atEnd (String.ofList (cs ++ d :: ds)) ⟨String.utf8Len cs⟩ := by
        rw [String.atEnd_of_valid]
        nofun
      have hd : (d == String.Pos.Raw.get "/" 0) = false := by
        have hslash : String.Pos.Raw.get "/" 0 = '/' := by decide
        rw [hslash, beq_eq_false_iff_ne]
        rintro rfl
        exact h List.mem_cons_self
      have hget := String.get_of_valid cs (d :: ds)
      have hnext := String.next_of_valid cs d ds
      have hrest := @ih (cs ++ [d]) fun hmem => h (List.mem_cons_of_mem _ hmem)
      rw [String.splitOnAux, if_neg hmore, hget, List.headD_cons, if_neg (by rw [hd]; nofun)]
      rw [List.append_assoc, List.singleton_append, String.utf8Len_append, String.utf8Len_cons,
        String.utf8Len_nil, Nat.zero_add] at hrest
      exact (congrArg (String.splitOnAux _ "/" 0 · 0 []) hnext).trans hrest

/-- A name without a slash is a path of its own. -/
theorem ofString_name {name : String} (hslash : '/' ∉ name.toList) (hempty : name ≠ "")
    (hdot : name ≠ ".") : ofString name = ⟨"", [name]⟩ := by
  have hsplit : name.splitOn "/" = [name] := by
    have haux := @splitOnAux_eq [] name.toList hslash
    rw [List.nil_append, String.ofList_toList] at haux
    rw [String.splitOn, if_neg (by decide)]
    exact haux
  have hroot : name.toList.takeWhile (· == '/') = [] := by
    cases hchars : name.toList with
    | nil => rfl
    | cons c cs =>
        refine List.takeWhile_cons_of_neg fun heq => ?_
        rw [hchars, eq_of_beq heq] at hslash
        exact hslash List.mem_cons_self
  unfold ofString
  rw [hsplit, hroot]
  simp [hempty, hdot]

/-- A suffix of the last name is one of the whole path. -/
theorem intercalate_append (separator : String) (names : List String) (name suffix : String) :
    separator.intercalate (names ++ [name ++ suffix]) =
      separator.intercalate (names ++ [name]) ++ suffix := by
  cases names with
  | nil => simp only [List.nil_append, String.intercalate_singleton]
  | cons n names =>
      rw [String.intercalate_append_of_ne_nil (List.cons_ne_nil n names) (by simp),
        String.intercalate_append_of_ne_nil (List.cons_ne_nil n names) (by simp),
        String.intercalate_singleton, String.intercalate_singleton]
      simp only [String.append_assoc]

/-- More characters of the last component stand at the end of the whole text. -/
theorem toString_append (root : String) (dirs : List String) (name suffix : String) :
    Path.toString ⟨root, dirs ++ [name ++ suffix]⟩ =
      Path.toString ⟨root, dirs ++ [name]⟩ ++ suffix := by
  have hplain : ∀ name, Path.toString ⟨root, dirs ++ [name]⟩ =
      root ++ "/".intercalate (dirs ++ [name]) := by
    intro name
    simp [Path.toString]
  rw [hplain, hplain, intercalate_append, String.append_assoc]

/-- A suffix is added to the last name. -/
theorem addSuffix_eq {p : Path} {dirs : List String} {name : String}
    (h : p.components = dirs ++ [name]) (suffix : String) :
    p.addSuffix suffix = ⟨p.root, dirs ++ [name ++ suffix]⟩ := by
  simp [addSuffix, h]

/-- A path is resolved directory by directory. -/
theorem resolve_eq {p : Path} {dirs : List String} {name : String}
    (h : p.components = dirs ++ [name]) (hname : name ≠ "..") :
    p.resolve = (dirs.foldl step p.start).child name := by
  rw [resolve, h, List.foldl_concat, step, if_neg hname]

end Path

namespace Files

variable {files : Files} {p q : Path} {dirs : List String} {name text : String}

/-! ## Paths through directories -/

/-- What components lead to is decided at the last of them, if the others lead to a
directory. -/
theorem follow_concat (files : Files) (here : Path) (dirs : List String) (name : String) :
    files.follow here (dirs ++ [name]) = match files.follow here dirs with
      | .directory => files.follow (dirs.foldl Path.step here) [name]
      | .tooLong => .tooLong
      | .file _ | .missing => .missing := by
  -- one directory at a time, up to the last name
  induction dirs generalizing here with
  | nil => rfl
  | cons c dirs ih =>
      rw [List.cons_append, follow, follow, List.foldl_cons]
      by_cases hup : c = ".."
      · rw [if_pos hup, if_pos hup, ih]
      · rw [if_neg hup, if_neg hup]
        by_cases hlong : maxName < c.utf8ByteSize
        · rw [if_pos hlong, if_pos hlong]
        · rw [if_neg hlong, if_neg hlong]
          cases Keyed.get? files.contents (here.step c).toString with
          | some content => cases dirs <;> rfl
          | none =>
              dsimp only
              cases files.isDirectory (here.step c).toString with
              | true => exact ih _
              | false => rfl

/-- What lies at a name in a directory. -/
theorem follow_name (here : Path) (hname : name ≠ "..") (hle : name.utf8ByteSize ≤ maxName) :
    files.follow here [name] = match Keyed.get? files.contents (here.child name).toString with
      | some content => .file content
      | none => if files.isDirectory (here.child name).toString then .directory else .missing := by
  unfold follow
  dsimp only
  rw [if_neg hname, if_neg (Nat.not_lt.mpr hle), Path.step, if_neg hname]
  rfl

/-- The path goes through directories to a name that a file may have. -/
structure Leads (files : Files) (p : Path) (dirs : List String) (name : String) : Prop where
  components : p.components = dirs ++ [name]
  through : files.follow p.start dirs = .directory
  name_ne : name ≠ ".."
  name_le : name.utf8ByteSize ≤ maxName
  plain : p.toString.contains '\x00' = false
  size_le : p.toString.utf8ByteSize ≤ maxPath

/-- What lies at a path through directories is what is kept under its resolved text. -/
theorem Leads.find_eq (h : files.Leads p dirs name) :
    files.find p = match Keyed.get? files.contents p.resolve.toString with
      | some content => .file content
      | none => if files.isDirectory p.resolve.toString then .directory else .missing := by
  rw [find, h.plain, if_neg Bool.false_ne_true, if_neg (Nat.not_lt.mpr h.size_le), h.components,
    follow_concat, h.through, Path.resolve_eq h.components h.name_ne]
  exact follow_name _ h.name_ne h.name_le

/-- A file that is found is there under its resolved path. -/
theorem Leads.get?_of_find (h : files.Leads p dirs name) {content : ByteArray}
    (hfind : files.find p = .file content) :
    Keyed.get? files.contents p.resolve.toString = some content := by
  rw [h.find_eq] at hfind
  cases hget : Keyed.get? files.contents p.resolve.toString with
  | some found =>
      rw [hget] at hfind
      cases hfind
      rfl
  | none =>
      rw [hget] at hfind
      dsimp only at hfind
      split at hfind <;> cases hfind

/-- A path that a file lies at goes through directories. -/
theorem leads_of_find {content : ByteArray} (h : files.find p = .file content) :
    ∃ dirs name, files.Leads p dirs name := by
  unfold find at h
  split at h
  · cases h
  rename_i hplain
  split at h
  · cases h
  rename_i hsize
  -- a path without names is a directory
  rcases List.eq_nil_or_concat' p.components with hnil | ⟨dirs, name, hcomponents⟩
  · rw [hnil] at h
    cases h
  rw [hcomponents, follow_concat] at h
  split at h
  · rename_i hthrough
    have hname : name ≠ ".." := by
      rintro rfl
      cases h
    have hle : ¬ maxName < name.utf8ByteSize := by
      intro hlong
      rw [follow] at h
      rw [if_neg hname, if_pos hlong] at h
      cases h
    exact ⟨dirs, name, hcomponents, hthrough, hname, Nat.not_lt.mp hle,
      Bool.eq_false_iff.mpr hplain, Nat.not_lt.mp hsize⟩
  · cases h
  · cases h
  · cases h

/-- A plain name goes through no directories. -/
theorem leads_name (hdots : name ≠ "..") (hnull : name.contains '\x00' = false)
    (hsize : name.utf8ByteSize ≤ maxName) : files.Leads ⟨"", [name]⟩ [] name :=
  ⟨rfl, rfl, hdots, hsize, hnull, Nat.le_trans hsize (by decide)⟩

theorem Leads.resolve_name (h : files.Leads ⟨"", [name]⟩ [] name) :
    (Path.resolve ⟨"", [name]⟩).toString = name := by
  rw [Path.resolve_eq h.components h.name_ne]
  rfl

/-- What lies at a plain name. -/
theorem find_name (hdots : name ≠ "..") (hnull : name.contains '\x00' = false)
    (hsize : name.utf8ByteSize ≤ maxName) :
    files.find ⟨"", [name]⟩ = match Keyed.get? files.contents name with
      | some content => .file content
      | none => if files.isDirectory name then .directory else .missing := by
  have hleads : files.Leads ⟨"", [name]⟩ [] name := leads_name hdots hnull hsize
  rw [hleads.find_eq, hleads.resolve_name]

/-! ## One file written -/

/-- A file can be written at the path in directories that are there already. -/
structure Writable (files : Files) (p : Path) : Prop where
  above : ∀ d : String, (d ++ "/").toList <+: p.resolve.toString.toList →
    files.isDirectory d = true
  free : Keyed.get? files.contents p.resolve.toString = none →
    files.isDirectory p.resolve.toString = false

/-- Whether any key passes a test, after one is set. -/
theorem any_set {α : Type} (test : String → Bool) (key : String) (a : α)
    (entries : List (String × α)) :
    (Keyed.set key a entries).any (fun e => test e.1) =
      (test key || entries.any fun e => test e.1) := by
  induction entries with
  | nil => rfl
  | cons e entries ih =>
      obtain ⟨k, b⟩ := e
      by_cases hk : k = key
      · subst hk
        simp [Keyed.set]
      · simp only [Keyed.set, beq_iff_eq, hk, if_false, List.any_cons, ih]
        exact Bool.or_left_comm _ _ _

theorem Writable.isDirectory_write (h : files.Writable p) (text d : String) :
    (files.write p text).isDirectory d = files.isDirectory d := by
  have hany := any_set (fun key => (d ++ "/").toList.isPrefixOf key.toList) p.resolve.toString
    text.toUTF8 files.contents
  unfold isDirectory write
  dsimp only
  rw [hany]
  cases hprefix : (d ++ "/").toList.isPrefixOf p.resolve.toString.toList with
  | false => rw [Bool.false_or]
  | true =>
      have hthere := h.above d (List.isPrefixOf_iff_prefix.mp hprefix)
      unfold isDirectory at hthere
      rw [hthere, Bool.true_or, Bool.or_true]

/-- Writing changes one file. -/
theorem get?_write (files : Files) (p : Path) (text key : String) :
    Keyed.get? (files.write p text).contents key =
      if p.resolve.toString = key then some text.toUTF8
      else Keyed.get? files.contents key := by
  simp only [write, Keyed.get?_set, beq_iff_eq]

/-- Components lead to what they led to before a file was written, or they lead to that
file, where there was no directory. -/
theorem Writable.follow_write (h : files.Writable p) (text : String) (here : Path)
    (components : List String) :
    (files.write p text).follow here components = files.follow here components ∨
      (components.foldl Path.step here).toString = p.resolve.toString ∧
        files.follow here components ≠ .directory := by
  induction components generalizing here with
  | nil => exact .inl rfl
  | cons c rest ih =>
      rw [follow, follow, List.foldl_cons, get?_write, h.isDirectory_write]
      by_cases hup : c = ".."
      · rw [if_pos hup, if_pos hup]
        exact ih _
      · rw [if_neg hup, if_neg hup]
        by_cases hlong : maxName < c.utf8ByteSize
        · rw [if_pos hlong, if_pos hlong]
          exact .inl rfl
        · rw [if_neg hlong, if_neg hlong]
          by_cases hkey : p.resolve.toString = (here.step c).toString
          · -- a file lies here now; before there was one, or nothing
            have hfree := h.free
            rw [hkey] at hfree
            rw [if_pos hkey]
            cases hold : Keyed.get? files.contents (here.step c).toString with
            | some content =>
                cases rest with
                | nil => exact .inr ⟨hkey.symm, nofun⟩
                | cons => exact .inl rfl
            | none =>
                dsimp only
                rw [hfree hold]
                cases rest with
                | nil => exact .inr ⟨hkey.symm, nofun⟩
                | cons => exact .inl rfl
          · rw [if_neg hkey]
            cases Keyed.get? files.contents (here.step c).toString with
            | some content => exact .inl rfl
            | none =>
                dsimp only
                cases files.isDirectory (here.step c).toString with
                | true => exact ih _
                | false => exact .inl rfl

/-- What lies at another path stays. -/
theorem Writable.find_write_of_ne (h : files.Writable p) (text : String)
    (hne : q.resolve.toString ≠ p.resolve.toString) :
    (files.write p text).find q = files.find q := by
  unfold find
  rcases h.follow_write text q.start q.components with hfollow | ⟨hkey, -⟩
  · rw [hfollow]
  · exact absurd hkey hne

/-- Writing leaves the ways that lead somewhere. -/
theorem Leads.write (hq : files.Leads q dirs name) (h : files.Writable p) (text : String) :
    (files.write p text).Leads q dirs name := by
  refine { hq with through := ?_ }
  rcases h.follow_write text q.start dirs with hfollow | ⟨-, hne⟩
  · exact hfollow.trans hq.through
  · exact absurd hq.through hne

/-- At the path itself lies what was written. -/
theorem Leads.find_write (hp : files.Leads p dirs name) (h : files.Writable p) (text : String) :
    (files.write p text).find p = .file text.toUTF8 := by
  rw [(hp.write h text).find_eq, get?_write, if_pos rfl]

/-- Where no directory lies, a file can be written beside those that are there. -/
theorem Leads.free (h : files.Leads p dirs name) (hfind : files.find p ≠ .directory)
    (hnone : Keyed.get? files.contents p.resolve.toString = none) :
    files.isDirectory p.resolve.toString = false := by
  rw [h.find_eq, hnone] at hfind
  cases hdir : files.isDirectory p.resolve.toString with
  | false => rfl
  | true => exact absurd (if_pos hdir) hfind

/-! ## A file beside another one -/

/-- The path to a file goes through directories. -/
theorem isDirectory_of_prefix {content : ByteArray} {key d : String}
    (hkey : Keyed.get? files.contents key = some content) (hd : (d ++ "/").toList <+: key.toList) :
    files.isDirectory d = true := by
  rw [Keyed.get?, Option.map_eq_some_iff] at hkey
  rcases hkey with ⟨e, hfound, -⟩
  have hmem := List.mem_of_find?_eq_some hfound
  have hname := List.find?_some hfound
  simp only [beq_iff_eq] at hname
  unfold isDirectory
  rw [Bool.or_eq_true, List.any_eq_true]
  exact .inr ⟨e, hmem, List.isPrefixOf_iff_prefix.mpr (hname ▸ hd)⟩

/-- A mark that is not in the suffix is in front of it. -/
theorem prefix_of_prefix_append {α : Type} {as bs suffix : List α} {a : α}
    (h : as ++ [a] <+: bs ++ suffix) (hsuffix : a ∉ suffix) : as ++ [a] <+: bs := by
  rcases Nat.le_total (as ++ [a]).length bs.length with hle | hle
  · exact List.prefix_of_prefix_length_le h (List.prefix_append bs suffix) hle
  · -- the suffix would begin with what is missing, the last element included
    obtain ⟨cs, hcs⟩ := List.prefix_of_prefix_length_le (List.prefix_append bs suffix) h hle
    rcases List.eq_nil_or_concat' cs with rfl | ⟨ds, d, rfl⟩
    · rw [List.append_nil] at hcs
      exact hcs ▸ List.prefix_refl _
    · rw [← List.append_assoc] at hcs
      obtain ⟨hfront, hlast⟩ := List.append_inj' hcs rfl
      cases hlast
      rw [← hfront, List.append_assoc] at h
      have hin := (List.prefix_append_right_inj bs).mp h
      exact absurd (hin.subset (by simp)) hsuffix

section Suffix

variable {suffix : String}

/-- The path with a suffix goes through the same directories. -/
theorem Leads.addSuffix (h : files.Leads p dirs name) (hsuffix : 2 < suffix.utf8ByteSize)
    (hnull : '\x00' ∉ suffix.toList) (hfind : files.find (p.addSuffix suffix) ≠ .tooLong) :
    files.Leads (p.addSuffix suffix) dirs (name ++ suffix) := by
  have hpath := Path.addSuffix_eq h.components suffix
  have hname : name ++ suffix ≠ ".." := by
    intro hdots
    have hsize := congrArg String.utf8ByteSize hdots
    rw [String.utf8ByteSize_append] at hsize
    have htwo : "..".utf8ByteSize = 2 := rfl
    omega
  have htext : (p.addSuffix suffix).toString = p.toString ++ suffix := by
    rw [hpath, Path.toString_append, ← h.components]
  have hplain : (p.addSuffix suffix).toString.contains '\x00' = false := by
    have hold := h.plain
    rw [String.contains_char_eq, decide_eq_false_iff_not] at hold ⊢
    rw [htext, String.toList_append, List.mem_append, not_or]
    exact ⟨hold, hnull⟩
  -- the text and the name are short enough, or that would have been found out
  rw [find, hplain, if_neg Bool.false_ne_true] at hfind
  have hsize : ¬ maxPath < (p.addSuffix suffix).toString.utf8ByteSize := by
    intro hlong
    exact hfind (if_pos hlong)
  have hthrough : files.follow (p.addSuffix suffix).start dirs = .directory := by
    rw [hpath]
    exact h.through
  have hcomponents : (p.addSuffix suffix).components = dirs ++ [name ++ suffix] := by rw [hpath]
  rw [if_neg hsize, hcomponents, follow_concat, hthrough] at hfind
  have hle : ¬ maxName < (name ++ suffix).utf8ByteSize := by
    intro hlong
    refine hfind ?_
    dsimp only
    rw [follow, if_neg hname, if_pos hlong]
  exact ⟨hcomponents, hthrough, hname, Nat.not_lt.mp hle, hplain, Nat.not_lt.mp hsize⟩

/-- The resolved path with a suffix is that of the path with it. -/
theorem Leads.resolve_addSuffix (h : files.Leads p dirs name)
    (h' : files.Leads (p.addSuffix suffix) dirs (name ++ suffix)) :
    (p.addSuffix suffix).resolve.toString = p.resolve.toString ++ suffix := by
  have hstart : (p.addSuffix suffix).start = p.start := by rw [Path.addSuffix_eq h.components]; rfl
  rw [Path.resolve_eq h'.components h'.name_ne, Path.resolve_eq h.components h.name_ne, hstart]
  exact Path.toString_append _ _ _ _

/-- Beside a file another one can be written under its name with a suffix. -/
theorem Leads.writable_addSuffix {content : ByteArray} (h : files.Leads p dirs name)
    (hfile : files.find p = .file content)
    (h' : files.Leads (p.addSuffix suffix) dirs (name ++ suffix)) (hslash : '/' ∉ suffix.toList)
    (hfind : files.find (p.addSuffix suffix) ≠ .directory) :
    files.Writable (p.addSuffix suffix) where
  free := h'.free hfind
  above d hd := by
    rw [h.resolve_addSuffix h', String.toList_append, String.toList_append] at hd
    refine isDirectory_of_prefix (h.get?_of_find hfile) ?_
    rw [String.toList_append]
    exact prefix_of_prefix_append hd hslash

end Suffix

/-- A file with a plain name can be written where no directory is. -/
theorem writable_name (hdots : name ≠ "..") (hnull : name.contains '\x00' = false)
    (hsize : name.utf8ByteSize ≤ maxName) (hslash : '/' ∉ name.toList)
    (hfind : files.find ⟨"", [name]⟩ ≠ .directory) : files.Writable ⟨"", [name]⟩ := by
  have hleads : files.Leads ⟨"", [name]⟩ [] name := leads_name hdots hnull hsize
  refine ⟨fun d hd => ?_, hleads.free hfind⟩
  rw [hleads.resolve_name, String.toList_append] at hd
  exact absurd (hd.subset (by simp)) hslash

end Files

end NovaLang
