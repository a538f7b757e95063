import Mathlib

/-!
# Symbols of the static linker

`linker_append_elf_syms` of `tools/lib/bpf/linker.c` after the sections of an object have been
appended. The BTF of global symbols is left out: it is found, and it matches.

Seen from one name a file contributes at most one event, a definition or a reference, weak or not.
The linker keeps for a name what `known` keeps, and the law of `known` is about lists of events.
-/

namespace LinuxKernel.Bpf.Linker

open List hiding getElem?_eq_some_iff
open Function List Option

/-! ## The code -/

inductive Bind
  | stbLocal
  | stbGlobal
  | stbWeak
  deriving DecidableEq

/-- `st_shndx`: `SHN_UNDEF`, a section of the object or one of the reserved indices -/
inductive Shndx
  | undef
  | sec (i : Nat)
  | reserved (shndx : Nat)
  deriving DecidableEq

def sttSection : Nat := 3

/-- `externSec` is the section that has the name of the `DATASEC` of an extern, unless this is
`.extern`. -/
structure ElfSym where
  name : String
  bind : Bind
  type : Nat
  vis : Nat
  shndx : Shndx
  value : Nat
  size : Nat
  externSec : Option Nat := none

/-- `dstSecIdx` is `sec_idx` of the section `dst_id` of the output. -/
structure SrcSec where
  skipped : Bool
  dstId : Nat
  dstSecIdx : Nat
  dstOff : Nat

structure SrcObj where
  secs : Nat → SrcSec
  syms : List ElfSym

structure DstSym where
  name : String
  bind : Bind
  type : Nat
  vis : Nat
  shndx : Nat
  value : Nat
  size : Nat

structure GlobSym where
  symIdx : Nat
  isExtern : Bool
  isWeak : Bool

/-- `globs` has the `glob_syms` by their names; `secSymIdx` is `sec_sym_idx` of the output sections,
and `symMap` is that of the object. -/
structure State where
  syms : List DstSym
  globs : String → Option GlobSym
  secSymIdx : Nat → Nat
  symMap : Nat → Nat

inductive LinkError
  /-- conflicting non-weak symbol definition -/
  | conflict (name : String)
  /-- `dst_sec` is `NULL` -/
  | crash
  deriving DecidableEq

def ElfSym.isExtern (sym : ElfSym) : Bool := .undef = sym.shndx

def SrcObj.srcSec (obj : SrcObj) (sym : ElfSym) : Option SrcSec :=
  match sym.shndx with
  | .undef => sym.externSec.map obj.secs
  | .sec i => some (obj.secs i)
  | .reserved _ => none

def SrcObj.place (obj : SrcObj) (sym : ElfSym) : Nat × Nat :=
  match obj.srcSec sym, sym.shndx with
  | some sec, _ => (sec.dstSecIdx, sec.dstOff + sym.value)
  | none, .reserved shndx => (shndx, sym.value)
  | none, _ => (0, sym.value)

/-- From the label `add_sym` on -/
def State.addSym (s : State) (obj : SrcObj) (i : Nat) (sym : ElfSym) : State :=
  let idx := s.syms.length
  let place := obj.place sym
  let value := if sym.type = sttSection then 0 else place.2
  { syms := s.syms ++ [⟨sym.name, sym.bind, sym.type, sym.vis, place.1, value, sym.size⟩]
    globs := if sym.bind = .stbLocal then s.globs
      else Function.update s.globs sym.name (some ⟨idx, sym.isExtern, sym.bind = .stbWeak⟩)
    secSymIdx := match obj.srcSec sym with
      | some sec => if sym.type = sttSection then Function.update s.secSymIdx sec.dstId idx
          else s.secSymIdx
      | none => s.secSymIdx
    symMap := Function.update s.symMap i idx }

def tighten (sym : ElfSym) (dst : DstSym) : DstSym :=
  { dst with
    bind := if sym.bind = .stbGlobal then .stbGlobal else dst.bind
    vis := if sym.vis > dst.vis then sym.vis else dst.vis }

/-- A global symbol of which the name is known -/
def State.resolve (s : State) (obj : SrcObj) (i : Nat) (sym : ElfSym) (glob : GlobSym) :
    Except LinkError State :=
  let s := { s with symMap := Function.update s.symMap i glob.symIdx }
  if !sym.isExtern && !glob.isExtern && !glob.isWeak && sym.bind ≠ .stbWeak then
    .error (.conflict sym.name)
  else
    let isWeak := glob.isWeak && sym.bind ≠ .stbGlobal
    let s := { s with
      syms := s.syms.modify glob.symIdx (tighten sym)
      globs := Function.update s.globs sym.name (some { glob with isWeak }) }
    if sym.isExtern then .ok s
    else if !glob.isExtern && sym.bind = .stbWeak then .ok s
    else if obj.srcSec sym = none then .error .crash
    else
      let place := obj.place sym
      .ok { s with
        syms := s.syms.modify glob.symIdx fun dst =>
          { dst with type := sym.type, shndx := place.1, value := place.2, size := sym.size }
        globs := Function.update s.globs sym.name (some { glob with isWeak, isExtern := false }) }

def appendSym (obj : SrcObj) (s : State) (i : Nat) (sym : ElfSym) : Except LinkError State :=
  match sym.shndx with
  | .sec j =>
    if (obj.secs j).skipped then .ok s
    else if sym.type = sttSection ∧ s.secSymIdx (obj.secs j).dstId ≠ 0 then
      .ok { s with symMap := Function.update s.symMap i (s.secSymIdx (obj.secs j).dstId) }
    else appendKept
  | _ => appendKept
where
  appendKept : Except LinkError State :=
    if sym.bind = .stbLocal then .ok (s.addSym obj i sym)
    else match s.globs sym.name with
      | some glob => s.resolve obj i sym glob
      | none => .ok (s.addSym obj i sym)

/-- `linker_append_elf_syms`; the symbol 0 is not in the list. -/
def appendSyms (obj : SrcObj) (s : State) (i : Nat) : List ElfSym → Except LinkError State
  | [] => .ok s
  | sym :: syms => do appendSyms obj (← appendSym obj s i sym) (i + 1) syms

def link (s : State) : List SrcObj → Except LinkError State
  | [] => .ok s
  | obj :: objs => do link (← appendSyms obj { s with symMap := fun _ => 0 } 1 obj.syms) objs

abbrev Image := Nat × Nat × Nat × Nat

def DstSym.image (dst : DstSym) : Image := (dst.type, dst.shndx, dst.value, dst.size)

def SrcObj.image (obj : SrcObj) (sym : ElfSym) : Image :=
  (sym.type, (obj.place sym).1, (obj.place sym).2, sym.size)

/-- A global symbol of one name: a reference or a definition, `STB_GLOBAL` or `STB_WEAK` -/
structure Event where
  isExtern : Bool
  strong : Bool
  image : Image

def SrcObj.kept (obj : SrcObj) (sym : ElfSym) : Bool :=
  match sym.shndx with
  | .sec j => !(obj.secs j).skipped
  | _ => true

def SrcObj.toEvent (obj : SrcObj) (sym : ElfSym) : Event :=
  ⟨sym.isExtern, sym.bind = .stbGlobal, obj.image sym⟩

def SrcObj.event (obj : SrcObj) (name : String) (sym : ElfSym) : Option Event :=
  if sym.bind ≠ .stbLocal ∧ obj.kept sym = true ∧ name = sym.name then some (obj.toEvent sym)
  else none

def SrcObj.events (obj : SrcObj) (name : String) : List Event := obj.syms.filterMap (obj.event name)

/-- The symbols of the files in the order in which they are appended. -/
def symbols (objs : List SrcObj) : List (SrcObj × ElfSym) :=
  objs.flatMap fun obj => obj.syms.map (obj, ·)

def eventsOf (l : List (SrcObj × ElfSym)) (name : String) : List Event :=
  l.filterMap fun p => p.1.event name p.2

structure Known where
  isExtern : Bool
  isWeak : Bool
  image : Image

def Known.next (e : Event) : Option Known → Known
  | none => ⟨e.isExtern, !e.strong, e.image⟩
  | some k => ⟨k.isExtern && e.isExtern, k.isWeak && !e.strong,
      if e.isExtern || !k.isExtern && !e.strong then k.image else e.image⟩

def known (evs : List Event) : Option Known := evs.foldl (fun k e => some (Known.next e k)) none

/-- A definition that is not weak comes after a definition and after something that is not weak. -/
def Conflicts (evs : List Event) (e : Event) : Prop :=
  e.isExtern = false ∧ e.strong = true ∧ (∃ d ∈ evs, d.isExtern = false) ∧
  ∃ x ∈ evs, x.strong = true

def Clash (evs : List Event) : Prop := ∃ pre e, pre ++ [e] <+: evs ∧ Conflicts pre e

section
variable {evs evs' : List Event} {e : Event} {k : Known}

theorem known_snoc : known (evs ++ [e]) = some (Known.next e (known evs)) := by
  simp [known]

theorem known_eq_none : known evs = none ↔ evs = [] := by
  induction evs using reverseRecOn with
  | nil => simp [known]
  | append_singleton evs e => simp [known_snoc]

theorem clash_snoc : Clash (evs ++ [e]) ↔ Clash evs ∨ Conflicts evs e := by
  refine ⟨fun ⟨pre, x, hpre, h⟩ => ?_, fun h => ?_⟩
  · rcases prefix_concat_iff.1 hpre with heq | hpre
    · obtain ⟨rfl, hx⟩ := append_inj' heq rfl
      cases hx
      exact .inr h
    · exact .inl ⟨pre, x, hpre, h⟩
  · rcases h with ⟨pre, x, hpre, h⟩ | h
    · exact ⟨pre, x, hpre.trans (prefix_append evs [e]), h⟩
    · exact ⟨evs, e, prefix_rfl, h⟩

theorem Clash.append (h : Clash evs) (evs' : List Event) : Clash (evs ++ evs') := by
  obtain ⟨pre, x, hpre, h⟩ := h
  exact ⟨pre, x, hpre.trans (prefix_append evs evs'), h⟩

theorem known_flags (h : known evs = some k) :
    (k.isExtern = false ↔ ∃ d ∈ evs, d.isExtern = false) ∧
      (k.isWeak = false ↔ ∃ x ∈ evs, x.strong = true) := by
  induction evs using reverseRecOn generalizing k with
  | nil => cases h
  | append_singleton evs e ih =>
    rw [known_snoc] at h
    cases h
    cases hk : known evs with
    | none => simp [known_eq_none.1 hk, Known.next]
    | some k =>
      have ⟨hexts, hweak⟩ := ih hk
      simp only [Known.next, Bool.and_eq_false_iff, hexts, hweak, Bool.not_eq_false',
        mem_append, mem_singleton, or_and_right, exists_or, exists_eq_left, and_self]

end

/-! ## The linker keeps what is known -/

def State.view (s : State) (name : String) : Option Known :=
  (s.globs name).bind fun g => s.syms[g.symIdx]?.map fun dst => ⟨g.isExtern, g.isWeak, dst.image⟩

/-- The state after the events of each name. -/
structure Inv (s : State) (evs : String → List Event) : Prop where
  lt : ∀ n g, s.globs n = some g → g.symIdx < s.syms.length
  inj : ∀ n g m g', s.globs n = some g → s.globs m = some g' → n ≠ m → g.symIdx ≠ g'.symIdx
  view : ∀ n, s.view n = known (evs n)

/-- A global symbol that is kept has a section of its own if it is a definition. -/
structure ElfSym.Ok (sym : ElfSym) : Prop where
  type : sym.bind ≠ .stbLocal → sym.type ≠ sttSection
  shndx : sym.bind ≠ .stbLocal → ∀ i, sym.shndx ≠ .reserved i

section
variable {s s' : State} {obj : SrcObj} {i : Nat} {sym : ElfSym} {evs : String → List Event}

theorem Inv.frame (h : Inv s evs) (hglobs : s'.globs = s.globs)
    (hlen : s.syms.length ≤ s'.syms.length)
    (hsame : ∀ n g, s.globs n = some g → s'.syms[g.symIdx]? = s.syms[g.symIdx]?) : Inv s' evs := by
  refine ⟨fun n g hg => ?_, ?_, fun n => ?_⟩
  · exact Nat.lt_of_lt_of_le (h.lt n g (hglobs ▸ hg)) hlen
  · rw [hglobs]
    exact h.inj
  · rw [← h.view n, State.view, State.view, hglobs]
    cases hg : s.globs n with
    | none => rfl
    | some g => rw [bind_some, bind_some, hsame n g hg]

theorem Inv.write (h : Inv s evs) {n : String} {g : GlobSym} {d : DstSym} {new : List Event}
    (hglobs : s'.globs = update s.globs n (some g)) (hlen : s.syms.length ≤ s'.syms.length)
    (hother : ∀ m g', m ≠ n → s.globs m = some g' →
      g'.symIdx ≠ g.symIdx ∧ s'.syms[g'.symIdx]? = s.syms[g'.symIdx]?)
    (hdst : s'.syms[g.symIdx]? = some d) (hnew : known new = some ⟨g.isExtern, g.isWeak, d.image⟩) :
    Inv s' (update evs n new) := by
  have hmem : ∀ m g', s'.globs m = some g' → m = n ∧ g' = g ∨ m ≠ n ∧ s.globs m = some g' := by
    intro m g' hm
    rw [hglobs] at hm
    by_cases hmn : m = n
    · subst hmn
      rw [update_self] at hm
      cases hm
      exact .inl ⟨rfl, rfl⟩
    · rw [update_of_ne hmn] at hm
      exact .inr ⟨hmn, hm⟩
  refine ⟨fun m g' hm => ?_, fun m₁ g₁ m₂ g₂ h₁ h₂ hne => ?_, fun m => ?_⟩
  · rcases hmem m g' hm with ⟨rfl, rfl⟩ | ⟨_, hm⟩
    · exact (List.getElem?_eq_some_iff.1 hdst).1
    · exact Nat.lt_of_lt_of_le (h.lt m g' hm) hlen
  · rcases hmem m₁ g₁ h₁ with ⟨rfl, rfl⟩ | ⟨hn₁, h₁⟩
    · rcases hmem m₂ g₂ h₂ with ⟨rfl, rfl⟩ | ⟨hn₂, h₂⟩
      · exact absurd rfl hne
      · exact (hother m₂ g₂ hn₂ h₂).1.symm
    · rcases hmem m₂ g₂ h₂ with ⟨rfl, rfl⟩ | ⟨hn₂, h₂⟩
      · exact (hother m₁ g₁ hn₁ h₁).1
      · exact h.inj m₁ g₁ m₂ g₂ h₁ h₂ hne
  · by_cases hmn : m = n
    · subst hmn
      rw [update_self, hnew, State.view, hglobs]
      simp [hdst]
    rw [update_of_ne hmn, ← h.view m, State.view, State.view, hglobs, update_of_ne hmn]
    cases hm : s.globs m with
    | none => rfl
    | some g' => rw [bind_some, bind_some, (hother m g' hmn hm).2]

theorem events_eq (evs : String → List Event) (hbind : sym.bind ≠ .stbLocal)
    (hkept : obj.kept sym = true) : (fun n => evs n ++ (obj.event n sym).toList) =
      update evs sym.name (evs sym.name ++ [obj.toEvent sym]) := by
  funext n
  by_cases hn : n = sym.name
  · simp [hn, SrcObj.event, hbind, hkept]
  · simp [hn, SrcObj.event]

theorem Inv.addSym (h : Inv s evs) (hok : sym.Ok) (hkept : obj.kept sym = true)
    (hnew : sym.bind ≠ .stbLocal → s.globs sym.name = none) :
    Inv (s.addSym obj i sym) fun n => evs n ++ (obj.event n sym).toList := by
  have hold : ∀ n g, s.globs n = some g →
      g.symIdx ≠ s.syms.length ∧ (s.addSym obj i sym).syms[g.symIdx]? = s.syms[g.symIdx]? :=
    fun n g hg => ⟨Nat.ne_of_lt (h.lt n g hg), getElem?_append_left (h.lt n g hg)⟩
  by_cases hbind : sym.bind = .stbLocal
  · have hnone : (fun n => evs n ++ (obj.event n sym).toList) = evs := by simp [SrcObj.event, hbind]
    rw [hnone]
    exact h.frame (if_pos hbind) (by simp [State.addSym]) fun n g hg => (hold n g hg).2
  · rw [events_eq evs hbind hkept]
    have hnil : evs sym.name = [] := by
      rw [← known_eq_none, ← h.view, State.view, hnew hbind]
      rfl
    refine h.write (if_neg hbind) (by simp [State.addSym]) (fun m g _ hg => hold m g hg)
      (getElem?_concat_length) ?_
    cases hb : sym.bind with
    | stbLocal => exact absurd hb hbind
    | _ => simp [hnil, known, Known.next, SrcObj.toEvent, hb, DstSym.image, SrcObj.image,
        hok.type hbind]

theorem Inv.resolve (h : Inv s evs) (hok : sym.Ok) (hbind : sym.bind ≠ .stbLocal)
    (hkept : obj.kept sym = true) {g : GlobSym} (hg : s.globs sym.name = some g) :
    (Conflicts (evs sym.name) (obj.toEvent sym) ∧
      s.resolve obj i sym g = .error (.conflict sym.name)) ∨
    ∃ s', s.resolve obj i sym g = .ok s' ∧ ¬Conflicts (evs sym.name) (obj.toEvent sym) ∧
      Inv s' (fun n => evs n ++ (obj.event n sym).toList) := by
  obtain ⟨d, hd⟩ : ∃ d, s.syms[g.symIdx]? = some d :=
    ⟨_, getElem?_eq_getElem (h.lt _ g hg)⟩
  have hknown : known (evs sym.name) = some ⟨g.isExtern, g.isWeak, d.image⟩ := by
    rw [← h.view, State.view, hg, bind_some, hd]
    rfl
  have ⟨hexts, hweak⟩ := known_flags hknown
  have hconflict : Conflicts (evs sym.name) (obj.toEvent sym) ↔
      (!sym.isExtern && !g.isExtern && !g.isWeak && sym.bind ≠ .stbWeak) = true := by
    rw [Conflicts, ← hexts, ← hweak]
    cases hb : sym.bind with
    | stbLocal => exact absurd hb hbind
    | _ => simp [SrcObj.toEvent, hb, and_assoc]
  -- only the entry of this name is changed
  have hwrite : ∀ (f : DstSym → DstSym) (g' : GlobSym) (s' : State),
      s'.globs = update s.globs sym.name (some g') → s'.syms = s.syms.modify g.symIdx f →
      g'.symIdx = g.symIdx → Known.next (obj.toEvent sym) (some ⟨g.isExtern, g.isWeak, d.image⟩) =
        ⟨g'.isExtern, g'.isWeak, (f d).image⟩ →
      Inv s' (update evs sym.name (evs sym.name ++ [obj.toEvent sym])) := by
    intro f g' s' hglobs hsyms hidx hnext
    refine h.write (d := f d) hglobs ?_ (fun m g₁ hm hg₁ => ?_) ?_ ?_
    · simp [hsyms]
    · have hne := h.inj m g₁ _ g hg₁ hg hm
      simp only [hidx, hsyms, getElem?_modify, hne.symm, if_false]
      exact ⟨hne, by simp⟩
    · simp [hidx, hsyms, hd]
    · rw [known_snoc, hknown, hnext]
  unfold State.resolve
  split
  next hc => exact .inl ⟨hconflict.2 hc, rfl⟩
  next hc =>
    rw [← hconflict] at hc
    rw [events_eq evs hbind hkept]
    split
    next he =>
      refine .inr ⟨_, rfl, hc, hwrite (tighten sym) _ _ rfl rfl rfl ?_⟩
      simp [Known.next, SrcObj.toEvent, he, tighten, DstSym.image]
    next he =>
      split
      next hlost =>
        refine .inr ⟨_, rfl, hc, hwrite (tighten sym) _ _ rfl rfl rfl ?_⟩
        rw [Bool.and_eq_true, Bool.not_eq_true', decide_eq_true_eq] at hlost
        simp [Known.next, SrcObj.toEvent, he, hlost, tighten, DstSym.image]
      next hwon =>
        have hsec : obj.srcSec sym ≠ none := by
          cases hsh : sym.shndx with
          | undef => simp [ElfSym.isExtern, hsh] at he
          | sec j => simp [SrcObj.srcSec, hsh]
          | reserved j => exact absurd hsh (hok.shndx hbind j)
        rw [if_neg hsec]
        refine .inr ⟨_, rfl, hc, hwrite (fun dst => { tighten sym dst with
          type := sym.type, shndx := (obj.place sym).1, value := (obj.place sym).2,
          size := sym.size }) _ _
          (update_idem ..) ?_ rfl ?_⟩
        · exact modify_modify_eq _ _ _ _
        have hnew : (!g.isExtern && !decide (sym.bind = .stbGlobal)) = false := by
          cases hb : sym.bind with
          | stbLocal => exact absurd hb hbind
          | stbGlobal => simp
          | stbWeak => simpa [hb] using hwon
        simp [Known.next, SrcObj.toEvent, he, hnew, DstSym.image, SrcObj.image]

/-- The first symbol that conflicts with the ones before it is of this name. -/
def First (seq : List (SrcObj × ElfSym)) (n : String) : Prop :=
  ∃ pre obj sym post e, seq = pre ++ (obj, sym) :: post ∧ (∀ m, ¬Clash (eventsOf pre m)) ∧
    obj.event n sym = some e ∧ Conflicts (eventsOf pre n) e

/-- The result is a state after these symbols, among which there is no clash, or the report of the
first. -/
def Follows (r : Except LinkError State) (seq : List (SrcObj × ElfSym)) : Prop :=
  (∃ s, r = .ok s ∧ Inv s (eventsOf seq) ∧ ∀ n, ¬Clash (eventsOf seq n)) ∨
    ∃ n, r = .error (.conflict n) ∧ First seq n

variable {seq more : List (SrcObj × ElfSym)}

theorem Follows.bind {r : Except LinkError State} {f : State → Except LinkError State}
    (hr : Follows r seq) (hf : ∀ s, Inv s (eventsOf seq) → (∀ n, ¬Clash (eventsOf seq n)) →
      Follows (f s) (seq ++ more)) : Follows (r >>= f) (seq ++ more) := by
  rcases hr with ⟨s, rfl, hinv, hno⟩ | ⟨n, rfl, pre, obj, sym, post, e, rfl, hfirst⟩
  · exact hf s hinv hno
  · exact .inr ⟨n, rfl, pre, obj, sym, post ++ more, e, by simp, hfirst⟩

theorem eventsOf_cut {pre post : List (SrcObj × ElfSym)} {n : String} {e : Event}
    (he : obj.event n sym = some e) :
    eventsOf (pre ++ (obj, sym) :: post) n = eventsOf pre n ++ e :: eventsOf post n := by
  simp [eventsOf, he]

theorem First.clash {n : String} (h : First seq n) : Clash (eventsOf seq n) := by
  obtain ⟨pre, obj, sym, post, e, rfl, -, he, hc⟩ := h
  rw [eventsOf_cut he, append_cons]
  exact (clash_snoc.2 (.inr hc)).append _

theorem First.unique {n n' : String} (h : First seq n) (h' : First seq n') : n = n' := by
  -- a prefix without a conflict ends where the first one is
  have hle : ∀ {pre obj sym post pre' rest n e}, seq = pre ++ (obj, sym) :: post →
      seq = pre' ++ rest → obj.event n sym = some e → Conflicts (eventsOf pre n) e →
      ¬Clash (eventsOf pre' n) → pre'.length ≤ pre.length := by
    intro pre obj sym post pre' rest n e hseq hseq' he hc hno
    by_contra hlt
    obtain ⟨l, rfl⟩ : pre ++ [(obj, sym)] <+: pre' :=
      prefix_of_prefix_length_le ⟨post, by simp [hseq]⟩ ⟨rest, hseq'.symm⟩ (by simp; omega)
    rw [← append_cons, eventsOf_cut he, append_cons] at hno
    exact hno ((clash_snoc.2 (.inr hc)).append _)
  obtain ⟨pre, obj, sym, post, e, hseq, hno, he, hc⟩ := h
  obtain ⟨pre', obj', sym', post', e', hseq', hno', he', hc'⟩ := h'
  have hlength := hle hseq hseq' he hc (hno' n)
  have hlength' := hle hseq' hseq he' hc' (hno n')
  obtain ⟨-, hcons⟩ := append_inj (hseq.symm.trans hseq') (by omega)
  cases hcons
  obtain ⟨⟨-, -, rfl⟩, -⟩ := ite_none_right_eq_some.1 he
  obtain ⟨⟨-, -, rfl⟩, -⟩ := ite_none_right_eq_some.1 he'
  rfl

end

/-! ## The law of resolution -/

def SrcObj.Defines (obj : SrcObj) (name : String) : Prop :=
  ∃ e ∈ obj.events name, e.isExtern = false ∧ e.strong = true

/-- Two of the files define the name with `STB_GLOBAL`. -/
def TwoDefine (objs : List SrcObj) (name : String) : Prop :=
  ∃ pre obj post, objs = pre ++ obj :: post ∧ obj.Defines name ∧ ∃ obj' ∈ pre, obj'.Defines name

/-- A definition with `STB_GLOBAL` after a weak one and a reference with `STB_GLOBAL`, in files of
which only one defines the name so, before any other conflict. -/
def Misjudged (objs : List SrcObj) (n : String) : Prop :=
  ¬TwoDefine objs n ∧ ∃ pre obj sym post e, symbols objs = pre ++ (obj, sym) :: post ∧
    (∀ m, ¬Clash (eventsOf pre m)) ∧ obj.event n sym = some e ∧ e.isExtern = false ∧
    e.strong = true ∧
    (∃ d ∈ eventsOf pre n, d.isExtern = false ∧ d.strong = false) ∧
    ∃ x ∈ eventsOf pre n, x.isExtern = true ∧ x.strong = true

section
variable {objs : List SrcObj} {n : String}

theorem TwoDefine.clash (h : TwoDefine objs n) : Clash (objs.flatMap (·.events n)) := by
  obtain ⟨pre, obj, post, rfl, ⟨e, he, hdefn⟩, obj', hobj', d, hd, hdefn'⟩ := h
  obtain ⟨a, b, hab⟩ := append_of_mem he
  have hmem : d ∈ pre.flatMap (·.events n) ++ a :=
    mem_append_left a (mem_flatMap.2 ⟨obj', hobj', hd⟩)
  refine ⟨pre.flatMap (·.events n) ++ a, e, ?_, hdefn.1, hdefn.2, ⟨d, hmem, hdefn'.1⟩, d, hmem,
    hdefn'.2⟩
  exact ⟨b ++ post.flatMap (·.events n), by simp [hab]⟩

theorem Misjudged.first (h : Misjudged objs n) : First (symbols objs) n := by
  obtain ⟨-, pre, obj, sym, post, e, hseq, hno, hevent, he, hs, ⟨d, hd, hdefn, -⟩, x, hx, -,
    hstrong⟩ := h
  exact ⟨pre, obj, sym, post, e, hseq, hno, hevent, he, hs, ⟨d, hd, hdefn⟩, x, hx, hstrong⟩

end

end LinuxKernel.Bpf.Linker
