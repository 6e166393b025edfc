import FileEngine.Os.Files

/-!
# Staying within a directory

`Effect.Within base` says that an effect is at `base` or beneath it, or that it makes a
directory above `base`. `Outside base t t'` says the same of the trees: outside of
`base` everything is as before, up to new directories above it. A call whose effects
are within `base` leaves everything outside alone (`exec_outside`).

The rules `wp_` say of each call when its effects are within `base`. A write goes to an
inode, so a handle must be `Owned`: its file stands beneath `base`, if anywhere.
-/

namespace FileEngine.Os

open Go

/-- The effect is at `base` or beneath it, or makes a directory above it. -/
def Effect.Within (base : Loc) : Effect → Prop
  | .created l isDir => base <+: l ∨ (isDir = true ∧ l <+: base)
  | .written l => base <+: l
  | .renamed src dst => base <+: src ∧ base <+: dst
  | .removed l => base <+: l

instance (base : Loc) : (e : Effect) → Decidable (e.Within base)
  | .created l isDir => inferInstanceAs (Decidable (base <+: l ∨ (isDir = true ∧ l <+: base)))
  | .written l => inferInstanceAs (Decidable (base <+: l))
  | .renamed src dst => inferInstanceAs (Decidable (base <+: src ∧ base <+: dst))
  | .removed l => inferInstanceAs (Decidable (base <+: l))

/-- Outside of `base` everything is as before, up to new directories above it. -/
def Outside (base : Loc) (t t' : FS) : Prop :=
  ∀ l, ¬ base <+: l → t'.look l = t.look l ∨
    (l <+: base ∧ t.look l = none ∧ t'.look l = some .dir)

section

variable {base l : Loc} {t t' t'' : FS}

theorem Outside.refl (t : FS) : Outside base t t := fun _ _ => Or.inl rfl

theorem Outside.trans (h : Outside base t t') (h' : Outside base t' t'') :
    Outside base t t'' := by
  intro l hl
  rcases h l hl with heq | ⟨hup, hnone, hdir⟩ <;> rcases h' l hl with heq' | ⟨hup', hnone', hdir'⟩
  · exact Or.inl (heq'.trans heq)
  · exact Or.inr ⟨hup', heq ▸ hnone', hdir'⟩
  · exact Or.inr ⟨hup, hnone, heq'.trans hdir⟩
  · rw [hdir] at hnone'
    cases hnone'

theorem outside_insert {isDir : Bool} {hv : t.Vacant l}
    (h : (Effect.created l isDir).Within base) : Outside base t (t.insert l isDir hv) := by
  intro k hk
  by_cases hkl : k = l
  · subst hkl
    rcases h with h | ⟨rfl, h⟩
    · exact absurd h hk
    · exact Or.inr ⟨h, FS.look_eq_none.mpr hv.new, FS.look_insert_dir⟩
  · exact Or.inl (FS.look_insert_of_ne hkl)

theorem outside_mkdirs (t : FS) (fault : Option (Nat × Errno)) (k rest : Loc)
    (h : ∀ e ∈ (t.mkdirs fault k rest).2.2, e.Within base) :
    Outside base t (t.mkdirs fault k rest).2.1 := by
  fun_induction FS.mkdirs t fault k rest with
  | case1 => exact .refl _
  | case2 => exact .refl _
  | case3 t fault k n rest _ fault' hnew hdir r t' effects heq ih =>
    rw [heq] at ih
    exact (outside_insert (h _ List.mem_cons_self)).trans
      (ih fun e he => h e (List.mem_cons_of_mem _ he))
  | case4 => exact .refl _
  | case5 t fault k n rest _ fault' _ _ ih => exact ih h
  | case6 => exact .refl _

theorem outside_prune {gone : Loc → Bool} {hp : t.Prunable gone}
    (h : ∀ l, gone l = true → t.node l ≠ none → base <+: l) : Outside base t (t.prune gone hp) :=
  fun l hl => Or.inl (FS.look_prune fun hg => hl (h l hg.1 hg.2))

theorem outside_write {i : Nat} {content : Str} (h : ∀ l ∈ t.places i, base <+: l) :
    Outside base t (t.write i content) :=
  fun l hl => Or.inl (FS.look_write fun hmem => hl (h l hmem))

theorem outside_rename {src dst : Loc} {hm : t.Movable src dst} (hsrc : base <+: src)
    (hdst : base <+: dst) : Outside base t (t.rename src dst hm) :=
  fun _ hl => Or.inl (FS.look_rename (fun h => hl (hsrc.trans h)) fun h => hl (hdst.trans h))

theorem outside_removed {kept : List Loc}
    (h : ∀ e ∈ (t.dom.filter fun k => FS.gone l kept k ∧ t.node k ≠ none).map Effect.removed,
      e.Within base) : Outside base t (t.removed l kept) := by
  refine outside_prune fun k hg hnode => h (.removed k) (List.mem_map_of_mem ?_)
  exact List.mem_filter.mpr ⟨t.mem_dom k hnode, decide_eq_true ⟨hg, hnode⟩⟩

theorem outside_places {i : Nat} {content : Str}
    (h : ∀ e ∈ (t.places i).map Effect.written, e.Within base) :
    Outside base t (t.write i content) :=
  outside_write fun _ hl => h _ (List.mem_map_of_mem hl)

/-- A call whose effects are within `base` leaves everything outside of it alone. -/
theorem exec_outside (c : Call) (choice : Choice) (t : FS)
    (h : ∀ e ∈ (exec c choice t).2.2, e.Within base) :
    Outside base t (exec c choice t).2.1 := by
  cases c with
  | mkdirAll path => exact outside_mkdirs t choice.fault [] (locate path) h
  | remove path =>
    rcases t.remove_cases choice path with ⟨e, heq⟩ | ⟨_, heq⟩ <;> simp only [exec, heq] at h ⊢
    · exact .refl t
    · refine outside_prune fun l hl _ => ?_
      rw [of_decide_eq_true hl]
      exact h _ List.mem_cons_self
  | removeAll path =>
    rcases t.removeAll_cases choice path with ⟨e, heq⟩ | ⟨r, kept, heq⟩ <;>
      simp only [exec, heq] at h ⊢
    · exact .refl t
    · exact outside_removed h
  | createTemp dir pre =>
    rcases t.createTemp_cases choice dir pre with ⟨e, heq⟩ | ⟨n, _, _, heq⟩ <;>
      simp only [exec, heq] at h ⊢
    · exact .refl t
    · exact outside_insert (h _ List.mem_cons_self)
  | create path =>
    rcases t.create_cases choice path with ⟨e, heq⟩ | ⟨i, _, heq⟩ | ⟨_, heq⟩ <;>
      simp only [exec, heq] at h ⊢
    · exact .refl t
    · exact outside_places h
    · exact outside_insert (h _ List.mem_cons_self)
  | openFile path =>
    rcases t.openFile_cases choice path with ⟨e, heq⟩ | ⟨n, _, heq⟩ <;> simp only [exec, heq]
    · exact .refl t
    · exact .refl t
  | writeAt hd offset bytes =>
    rcases t.writeAt_cases choice hd offset bytes with ⟨e, heq⟩ | ⟨i, r, content, _, heq⟩ <;>
      simp only [exec, heq] at h ⊢
    · exact .refl t
    · exact outside_places h
  | copyFile dst src =>
    rcases t.copyFile_cases choice dst src with ⟨e, heq⟩ | ⟨i, r, content, _, heq⟩ <;>
      simp only [exec, heq] at h ⊢
    · exact .refl t
    · exact outside_places h
  | closeFile hd =>
    obtain ⟨r, heq⟩ := t.closeFile_cases choice hd
    simp only [exec, heq]
    exact .refl t
  | rename old new =>
    rcases t.renamePath_cases choice old new with ⟨e, heq⟩ | ⟨_, heq⟩ | ⟨hm, _, heq⟩ <;>
      simp only [exec, heq] at h ⊢
    · exact .refl t
    · exact .refl t
    · obtain ⟨hsrc, hdst⟩ := h _ List.mem_cons_self
      exact outside_rename hsrc hdst

end

/-! ## Rules -/

theorem mkdirs_effects (t : FS) (fault : Option (Nat × Errno)) (k rest : Loc) :
    ∀ e ∈ (t.mkdirs fault k rest).2.2, ∃ l, e = .created l true ∧ l <+: k ++ rest := by
  fun_induction FS.mkdirs t fault k rest with
  | case1 => simp
  | case2 => simp
  | case3 t fault k n rest _ fault' hnew hdir r t' effects heq ih =>
    intro e he
    rw [heq, List.append_assoc] at ih
    rcases List.mem_cons.mp he with rfl | he
    · exact ⟨k ++ [n], rfl, by simp⟩
    · exact ih e he
  | case4 => simp
  | case5 t fault k n rest _ fault' _ _ ih =>
    rwa [List.append_assoc] at ih
  | case6 => simp

/-- The file of the handle stands beneath `base`, if anywhere. -/
def Owned (base : Loc) (h : Handle) (t : FS) : Prop :=
  ∀ i, h.node = .file i → ∀ l, t.node l = some (.file i) → base <+: l

section

variable {base : Loc} {t : FS}

theorem owned_insert {l : Loc} (hv : t.Vacant l) (hl : base <+: l) (name : Str) :
    Owned base ⟨.file t.next, name⟩ (t.insert l false hv) := by
  intro i hi k hk
  cases hi
  by_cases hkl : k = l
  · exact hkl ▸ hl
  · have hold : t.node k = some (.file t.next) :=
      (Function.update_of_ne hkl _ _).symm.trans hk
    exact absurd (t.fresh k _ hold) (Nat.lt_irrefl _)

theorem written_within {h : Handle} {i : Nat} (ho : Owned base h t) (hi : h.node = .file i) :
    ∀ e ∈ (t.places i).map Effect.written, e.Within base := by
  intro e he
  obtain ⟨l, hl, rfl⟩ := List.mem_map.mp he
  exact ho i hi l (FS.mem_places.mp hl)

theorem wp_mkdirAll {path : Str} {Q : Except Errno Unit → FS → Prop}
    (h : base <+: locate path ∨ locate path <+: base) (hQ : ∀ r t', Q r t') :
    Prog.Wp (Effect.Within base) Q (mkdirAll path) t := by
  refine fun choice => ⟨fun e he => ?_, hQ _ _⟩
  obtain ⟨l, rfl, hl⟩ := mkdirs_effects t choice.fault [] (locate path) e he
  rw [List.nil_append] at hl
  rcases h with h | h
  · exact (List.prefix_or_prefix_of_prefix h hl).imp_right fun hup => ⟨rfl, hup⟩
  · exact Or.inr ⟨rfl, hl.trans h⟩

theorem wp_createTemp {dir pre : Str} {Q : Except Errno Handle → FS → Prop}
    (h : base <+: locate dir) (herr : ∀ e, Q (.error e) t)
    (hok : ∀ hd t', base <+: locate hd.name → Owned base hd t' → Q (.ok hd) t') :
    Prog.Wp (Effect.Within base) Q (createTemp dir pre) t := by
  apply Prog.wp_call
  intro choice r t' effects hexec
  rcases t.createTemp_cases choice dir pre with ⟨e, heq⟩ | ⟨n, hv, hn, heq⟩
  · cases heq.symm.trans hexec
    exact ⟨by simp, herr e⟩
  · cases heq.symm.trans hexec
    have hl : base <+: locate dir ++ [n] := h.trans (List.prefix_append _ _)
    refine ⟨by simpa [Effect.Within] using hl, hok _ _ ?_ (owned_insert hv hl _)⟩
    rwa [FS.locate_joinPath]

theorem wp_create {path : Str} {Q : Except Errno Handle → FS → Prop}
    (h : base <+: locate path) (herr : ∀ e, Q (.error e) t)
    (hok : ∀ hd t', Owned base hd t' → Q (.ok hd) t') :
    Prog.Wp (Effect.Within base) Q (create path) t := by
  apply Prog.wp_call
  intro choice r t' effects hexec
  rcases t.create_cases choice path with ⟨e, heq⟩ | ⟨i, hi, heq⟩ | ⟨hv, heq⟩
  · cases heq.symm.trans hexec
    exact ⟨by simp, herr e⟩
  · cases heq.symm.trans hexec
    -- the file stands at the path, and at no other place
    have howned : Owned base ⟨.file i, path⟩ t := by
      intro j hj l hl
      cases hj
      exact t.single l _ i hl hi ▸ h
    exact ⟨written_within howned rfl, hok _ _ howned⟩
  · cases heq.symm.trans hexec
    exact ⟨by simpa [Effect.Within] using h, hok _ _ (owned_insert hv h path)⟩

theorem wp_openFile {path : Str} {Q : Except Errno Handle → FS → Prop} (hQ : ∀ r, Q r t) :
    Prog.Wp (Effect.Within base) Q (openFile path) t := by
  apply Prog.wp_call
  intro choice r t' effects hexec
  rcases t.openFile_cases choice path with ⟨e, heq⟩ | ⟨n, _, heq⟩
  · cases heq.symm.trans hexec
    exact ⟨by simp, hQ _⟩
  · cases heq.symm.trans hexec
    exact ⟨by simp, hQ _⟩

theorem wp_writeAt {hd : Handle} {offset : Nat} {bytes : Str} {Q : Except Errno Unit → FS → Prop}
    (ho : Owned base hd t) (hQ : ∀ r t', Owned base hd t' → Q r t') :
    Prog.Wp (Effect.Within base) Q (writeAt hd offset bytes) t := by
  apply Prog.wp_call
  intro choice r t' effects hexec
  rcases t.writeAt_cases choice hd offset bytes with ⟨e, heq⟩ | ⟨i, r', content, hi, heq⟩
  · cases heq.symm.trans hexec
    exact ⟨by simp, hQ _ _ ho⟩
  · cases heq.symm.trans hexec
    exact ⟨written_within ho hi, hQ _ _ ho⟩

theorem wp_copyFile {dst src : Handle} {Q : Except Errno Unit → FS → Prop}
    (ho : Owned base dst t) (hQ : ∀ r t', Q r t') :
    Prog.Wp (Effect.Within base) Q (copyFile dst src) t := by
  apply Prog.wp_call
  intro choice r t' effects hexec
  rcases t.copyFile_cases choice dst src with ⟨e, heq⟩ | ⟨i, r', content, hi, heq⟩
  · cases heq.symm.trans hexec
    exact ⟨by simp, hQ _ _⟩
  · cases heq.symm.trans hexec
    exact ⟨written_within ho hi, hQ _ _⟩

theorem wp_closeFile {G : Effect → Prop} {hd : Handle} {Q : Except Errno Unit → FS → Prop}
    (hQ : Q (.ok ()) t) : Prog.Wp G Q (closeFile hd) t := by
  show ∀ choice, (∀ e ∈ (t.closeFile choice hd).2.2, G e) ∧
    Q (.ok ()) (t.closeFile choice hd).2.1
  intro choice
  obtain ⟨r, heq⟩ := t.closeFile_cases choice hd
  rw [heq]
  exact ⟨by simp, hQ⟩

theorem wp_rename {old new : Str} {Q : Except Errno Unit → FS → Prop}
    (hold : base <+: locate old) (hnew : base <+: locate new) (hQ : ∀ r t', Q r t') :
    Prog.Wp (Effect.Within base) Q (rename old new) t := by
  have hwithin : ∀ e ∈ [Effect.renamed (locate old) (locate new)], e.Within base := by
    intro e he
    rw [List.mem_singleton.mp he]
    exact ⟨hold, hnew⟩
  apply Prog.wp_call
  intro choice r t' effects hexec
  rcases t.renamePath_cases choice old new with ⟨e, heq⟩ | ⟨_, heq⟩ | ⟨hm, _, heq⟩
  · cases heq.symm.trans hexec
    exact ⟨by simp, hQ _ _⟩
  · cases heq.symm.trans hexec
    exact ⟨hwithin, hQ _ _⟩
  · cases heq.symm.trans hexec
    exact ⟨hwithin, hQ _ _⟩

theorem wp_remove {path : Str} {Q : Except Errno Unit → FS → Prop} (h : base <+: locate path)
    (hQ : ∀ r t', Q r t') : Prog.Wp (Effect.Within base) Q (remove path) t := by
  apply Prog.wp_call
  intro choice r t' effects hexec
  rcases t.remove_cases choice path with ⟨e, heq⟩ | ⟨hp, heq⟩
  · cases heq.symm.trans hexec
    exact ⟨by simp, hQ _ _⟩
  · cases heq.symm.trans hexec
    exact ⟨by simpa [Effect.Within] using h, hQ _ _⟩

theorem wp_removeAll {path : Str} {Q : Except Errno Unit → FS → Prop} (h : base <+: locate path)
    (hQ : ∀ r t', Q r t') : Prog.Wp (Effect.Within base) Q (removeAll path) t := by
  apply Prog.wp_call
  intro choice r t' effects hexec
  rcases t.removeAll_cases choice path with ⟨e, heq⟩ | ⟨r', kept, heq⟩
  · cases heq.symm.trans hexec
    exact ⟨by simp, hQ _ _⟩
  · cases heq.symm.trans hexec
    refine ⟨fun e he => ?_, hQ _ _⟩
    obtain ⟨k, hk, rfl⟩ := List.mem_map.mp he
    have hgone := (of_decide_eq_true (List.mem_filter.mp hk).2).1
    exact h.trans (of_decide_eq_true hgone).1

end

end FileEngine.Os
