import TokenLang.Proofs.Prelude
import TokenLang.Proofs.Session.HostCall
import Mathlib.Order.CompletePartialOrder

/-!
Scopes that a host holds are isolated from each other. An evaluation changes the scope it takes
place in and the scopes that captors captured, and a captured scope is derived for its captor, so no
host holds it and no other captor captured it. `World.Isolated` states this for a set of captors
which holds all that occur in bindings; `Discipline.isolation` shows that evaluations keep it, with
a set that grows by one captor for each scope derived. Calls of a host keep it too
(`Session.Sound.perform`), and with it any property of scopes that edits and reservations keep.
-/

set_option autoImplicit false
set_option relaxedAutoImplicit false

namespace TokenLang

open Discipline
open StackMap (toList_push toList_pop toList_set get?_eq_toList)

/-! ### Bindings under edits -/

namespace StackMap

variable {α : Type}

theorem Plain.mem_of_get? {bindings : List (String × α)} {key : String} {value : α}
    (h : Plain.get? bindings key = some value) : (key, value) ∈ bindings := by
  obtain ⟨binding, hfind, rfl⟩ := Option.map_eq_some_iff.mp h
  have hkey : binding.1 = key := by simpa using List.find?_some hfind
  rw [← hkey]
  exact List.mem_reverse.mp (List.mem_of_find?_eq_some hfind)

theorem Plain.mem_of_mem_pop {bindings : List (String × α)} {key : String} {binding : String × α}
    (h : binding ∈ (Plain.pop bindings key).2) : binding ∈ bindings := by
  unfold Plain.pop at h
  split at h
  · exact List.mem_reverse.mp (List.mem_of_mem_eraseP (List.mem_reverse.mp h))
  · exact h

theorem Plain.mem_or_eq_of_mem_set {bindings : List (String × α)} {key : String} {value : α}
    {binding : String × α} (h : binding ∈ (Plain.set bindings key value).2) :
    binding ∈ bindings ∨ binding.2 = value := by
  rcases Plain.last_or_absent bindings key with ⟨front, old, back, rfl, hback⟩ | habsent
  · rw [Plain.set_of_last old hback] at h
    rcases List.mem_append.mp h with h | h
    · exact .inl (List.mem_append_left _ h)
    · rcases List.mem_cons.mp h with rfl | h
      · exact .inr rfl
      · exact .inl (List.mem_append_right _ (List.mem_cons_of_mem _ h))
  · rw [Plain.set, Plain.get?_of_absent habsent] at h
    exact .inl h

/-- An edit adds only bindings to tokens that it may use. -/
theorem Edit.forall_mem {free : String → Prop} {p : Token → Prop} {m m' : StackMap Token}
    (h : Edit free p m m') (hm : ∀ b ∈ m.toList, p b.2) : ∀ b ∈ m'.toList, p b.2 := by
  intro b hb
  cases h with
  | push _ ht =>
    rw [toList_push, Plain.push] at hb
    rcases List.mem_append.mp hb with hb | hb
    · exact hm b hb
    · cases List.mem_singleton.mp hb
      exact ht
  | pop _ =>
    rw [(toList_pop ..).2] at hb
    exact hm b (Plain.mem_of_mem_pop hb)
  | set _ ht =>
    rw [(toList_set ..).2] at hb
    rcases Plain.mem_or_eq_of_mem_set hb with hb | rfl
    · exact hm b hb
    · exact ht

end StackMap

theorem Scope.Edits.forall_mem {p : Token → Prop} {s : Scope} {m : StackMap Token}
    (h : s.Edits p m) (hs : ∀ b ∈ s.store.toList, p b.2) : ∀ b ∈ m.toList, p b.2 := by
  induction h with
  | refl => exact hs
  | tail _ hedit ih => exact hedit.forall_mem ih

/-! ### Isolated worlds -/

/-- A property of scopes that is kept by edits of names that are not reserved, and by reserving
names. -/
structure Scope.Lasting (K : Scope → Prop) : Prop where
  edits : ∀ {s : Scope} {p : Token → Prop} {m : StackMap Token}, K s → s.Edits p m →
    K { s with store := m }
  reserve : ∀ {s : Scope} (name : String), K s → K (s.reserve name)

/-- Captors, each with a scope of its own that is there and that no host holds. -/
structure Captor.Private (held : List ScopeId) (size : Nat) (occurs : Captor → Prop) : Prop where
  made : ∀ c, occurs c → c.scope < size
  foreign : ∀ c, occurs c → c.scope ∉ held
  single : ∀ c d, occurs c → occurs d → c.scope = d.scope → c = d

theorem Captor.Private.mono {held : List ScopeId} {size : Nat} {p q : Captor → Prop}
    (h : Private held size q) (hpq : ∀ c, p c → q c) : Private held size p :=
  ⟨fun c hc ↦ h.made c (hpq c hc), fun c hc ↦ h.foreign c (hpq c hc),
    fun c d hc hd ↦ h.single c d (hpq c hc) (hpq d hd)⟩

/-- One more captor, for a scope that was not there before. -/
theorem Captor.Private.insert {held : List ScopeId} {size : Nat} {σ : Set Captor}
    (h : Private held size (· ∈ σ)) {c : Captor} (hc : c.scope = size)
    (hheld : ∀ id ∈ held, id < size) : Private held (size + 1) (· ∈ insert c σ) := by
  have hnew : ∀ d ∈ σ, d.scope ≠ c.scope := fun d hd ↦ hc ▸ (h.made d hd).ne
  refine ⟨?_, ?_, ?_⟩
  · rintro d (rfl | hd)
    · exact hc ▸ Nat.lt_succ_self _
    · exact (h.made d hd).trans (Nat.lt_succ_self _)
  · rintro d (rfl | hd)
    · exact fun hmem ↦ (hheld _ hmem).ne hc
    · exact h.foreign d hd
  · rintro d e (rfl | hd) (rfl | he) heq
    · rfl
    · exact absurd heq.symm (hnew e he)
    · exact absurd heq (hnew d hd)
    · exact h.single d e hd he heq

/-- Worlds in which the captors of a set have scopes of their own, and only they occur in bindings.
Host code makes no captors. -/
structure World.Isolated (K : Scope → Prop) (held : List ScopeId) (σ : Set Captor) (w : World) :
    Prop where
  held_lt : ∀ id ∈ held, id < w.scopes.size
  captors : Captor.Private held w.scopes.size (· ∈ σ)
  bound : ∀ id, ∀ b ∈ (w.scope id).store.toList, b.2.Only (· ∈ σ)
  kept : ∀ id < w.scopes.size, K (w.scope id)
  host : w.host.Honest

namespace World.Isolated

variable {K : Scope → Prop} {held : List ScopeId} {σ : Set Captor} {w : World}

theorem mem_of_binds (h : w.Isolated K held σ) {c : Captor} (hc : w.Binds c) : c ∈ σ := by
  obtain ⟨id, b, hb, hc⟩ := hc
  exact h.bound id b hb c hc

/-- A change of one scope. -/
theorem modifyScope (h : w.Isolated K held σ) (id : ScopeId) (f : Scope → Scope)
    (hbound : ∀ b ∈ (f (w.scope id)).store.toList, b.2.Only (· ∈ σ))
    (hkept : K (w.scope id) → K (f (w.scope id))) : (w.modifyScope id f).Isolated K held σ := by
  have hsize : (w.modifyScope id f).scopes.size = w.scopes.size := Array.size_modify
  refine ⟨?_, ?_, fun other ↦ ?_, fun other hother ↦ ?_, h.host⟩
  · rw [hsize]
    exact h.held_lt
  · rw [hsize]
    exact h.captors
  · rw [scope_modifyScope_eq]
    split_ifs
    · exact hbound
    · exact h.bound other
  · rw [hsize] at hother
    rw [scope_modifyScope_eq]
    split_ifs with hid
    · exact hkept (hid.1 ▸ h.kept other hother)
    · exact h.kept other hother

/-- Deriving a scope, for a captor or for the host. -/
theorem derive (h : w.Isolated K held σ) {id : ScopeId} (hid : id < w.scopes.size)
    {held' : List ScopeId} {σ' : Set Captor} (hσ : σ ⊆ σ')
    (hheld : ∀ other ∈ held', other < w.scopes.size + 1)
    (hcaptors : Captor.Private held' (w.scopes.size + 1) (· ∈ σ')) :
    (w.derive id).2.Isolated K held' σ' := by
  have hsize : (w.derive id).2.scopes.size = w.scopes.size + 1 := by simp [World.derive]
  refine ⟨hsize ▸ hheld, hsize ▸ hcaptors, fun other b hb ↦ ?_, fun other hother ↦ ?_, h.host⟩
  · rw [scope_derive] at hb
    have hold : b.2.Only (· ∈ σ) := by
      split_ifs at hb
      · exact h.bound id b hb
      · exact h.bound other b hb
    exact hold.mono fun c hc ↦ hσ hc
  · rw [scope_derive]
    split_ifs with hnew
    · exact h.kept id hid
    · rw [hsize] at hother
      exact h.kept other (Nat.lt_of_le_of_ne (Nat.le_of_lt_succ hother) hnew)

end World.Isolated

/-- An invariant of evaluations that a host starts in a scope it holds: the world stays isolated,
and the other scopes that the host holds stay as they were before. -/
def Discipline.isolation {K : Scope → Prop} (hK : Scope.Lasting K) {held : List ScopeId}
    {here : ScopeId} (hhere : here ∈ held) (before : World) : Discipline (Set Captor) where
  lax := False
  rel σ w w' := w' = w ∧ w.Isolated K held σ ∧
    ∀ id ∈ held, id ≠ here → w.scope id = before.scope id
  may σ c := c ∈ σ
  own σ id := id = here ∨ ∃ c ∈ σ, c.scope = id
  may_mono hσ hc := hσ hc
  own_mono hσ := Or.imp_right fun ⟨c, hc, hid⟩ ↦ ⟨c, hσ hc, hid⟩
  own_of_may hc := .inr ⟨_, hc, rfl⟩
  scopes := by
    rintro σ w w' ⟨rfl, -, -⟩ id
    exact ⟨rfl, rfl, rfl, rfl, .inl rfl, .inl rfl⟩
  size := by
    rintro σ w w' ⟨rfl, -, -⟩
    rfl
  nextRef := by
    rintro σ w w' ⟨rfl, -, -⟩
    rfl
  generator := by
    rintro σ w w' ⟨rfl, -, -⟩
    rfl
  memory := by
    rintro σ w w' ⟨rfl, -, -⟩
    rfl
  host := by
    rintro σ w w' ⟨rfl, h, -⟩
    exact ⟨rfl, h.host _, False.elim⟩
  bound := by
    rintro σ w w' id name t ⟨rfl, h, -⟩ - ht
    rw [Scope.get?, get?_eq_toList] at ht
    exact h.bound id _ (StackMap.Plain.mem_of_get? ht)
  setRef := by
    rintro σ w w' ⟨rfl, h, hframe⟩ n -
    exact ⟨rfl, ⟨h.held_lt, h.captors, h.bound, h.kept, h.host⟩, hframe⟩
  print := by
    rintro σ w w' ⟨rfl, h, hframe⟩ text
    exact ⟨rfl, ⟨h.held_lt, h.captors, h.bound, h.kept, h.host⟩, hframe⟩
  setMemory := by
    rintro σ w w' ⟨rfl, h, hframe⟩ n
    exact ⟨rfl, ⟨h.held_lt, h.captors, h.bound, h.kept, h.host⟩, hframe⟩
  setGenerator := by
    rintro σ w w' ⟨rfl, h, hframe⟩ g
    exact ⟨rfl, ⟨h.held_lt, h.captors, h.bound, h.kept, h.host⟩, hframe⟩
  edit := by
    rintro σ w w' id m ⟨rfl, h, hframe⟩ hid hm
    refine ⟨rfl, h.modifyScope id _ (hm.forall_mem (h.bound id)) fun hk ↦ hK.edits hk hm, ?_⟩
    intro other hother hne
    have hother' : other ≠ id := by
      rintro rfl
      rcases hid with rfl | ⟨c, hc, rfl⟩
      · exact hne rfl
      · exact h.captors.foreign c hc hother
    rw [World.setStore, World.scope_modifyScope_eq, if_neg fun hid ↦ hother' hid.1]
    exact hframe other hother hne
  derive := by
    rintro σ w w' id c ⟨rfl, h, hframe⟩ hid hscope -
    have hsize : id < w'.scopes.size := by
      rcases hid with rfl | ⟨d, hd, rfl⟩
      · exact h.held_lt id hhere
      · exact h.captors.made d hd
    refine ⟨insert c σ, Set.subset_insert c σ, Set.mem_insert c σ, rfl, ?_, ?_⟩
    · refine h.derive hsize (Set.subset_insert c σ) (fun other hother ↦ ?_)
        (h.captors.insert hscope h.held_lt)
      exact (h.held_lt other hother).trans (Nat.lt_succ_self _)
    · intro other hother hne
      rw [World.scope_derive, if_neg (h.held_lt other hother).ne]
      exact hframe other hother hne

/-! ### Sound sessions -/

namespace Session

variable {K : Scope → Prop} {σ : Set Captor} {s : Session} {id : ScopeId} {call : HostCall}

/-- Sessions in an isolated world whose host got only values with captors of the set. -/
structure Sound (K : Scope → Prop) (σ : Set Captor) (s : Session) : Prop where
  world : s.world.Isolated K s.held σ
  known : ∀ v ∈ s.known, v.Only (· ∈ σ)

theorem Sound.mem_of_knows (h : s.Sound K σ) {c : Captor} (hc : s.Knows c) : c ∈ σ := by
  rcases hc with ⟨v, hv, hc⟩ | hc
  · exact h.known v hv c hc
  · exact h.world.mem_of_binds hc

theorem Sound.allOnly_of_allows (h : s.Sound K σ) (hallows : s.Allows id call) :
    Token.AllOnly (· ∈ σ) call.tokens :=
  hallows.2.mono fun _ hc ↦ h.mem_of_knows hc

/-- A look at the world and at the scan before each step of an evaluation changes nothing when what
is looked for holds in isolated worlds. -/
theorem Sound.guarded (hK : Scope.Lasting K) (h : s.Sound K σ) (hallows : s.Allows id call)
    {guard : World → Scan → Prop} (hguard : ∀ (σ : Set Captor) (w : World) (scan : Scan),
      w.Isolated K s.held σ → Token.AllOnly (· ∈ σ) scan.buffer → guard w scan)
    (alarm : EvalM Reduction) : (call.runBy (Program.stepGuarded guard alarm) id).run.run s.world =
      (call.run id).run.run s.world := by
  cases hcall : call.rebuilds with
  | true => cases call <;> first | rfl | cases hcall
  | false =>
    have hagree := HostCall.runBy_agrees (D := .isolation hK hallows.1 s.world)
      (Program.follows_stepGuarded (fun σ w w' scan hw hscan ↦ by
        obtain ⟨rfl, hw, -⟩ := hw
        exact hguard σ w' scan hw hscan.buffer) alarm) (.inl rfl) hcall
      (h.allOnly_of_allows hallows)
    rcases hagree s.world s.world ⟨rfl, h.world, fun _ _ _ ↦ rfl⟩ with
      ⟨hlax, -⟩ | ⟨_, _, ⟨hafter, -⟩, houtcome, -⟩
    · exact hlax.elim
    · exact Prod.ext houtcome hafter

/-- A call of the host that rebuilds nothing leaves the session sound, and every other scope that
the host holds as it was. -/
theorem Sound.perform_of_plain (hK : Scope.Lasting K) (h : s.Sound K σ)
    (hallows : s.Allows id call) (hcall : call.rebuilds = false) :
    (∃ σ', (s.perform id call).Sound K σ') ∧
      ∀ other ∈ s.held, other ≠ id →
        (s.perform id call).world.scope other = s.world.scope other := by
  have hagree := HostCall.runBy_agrees (D := .isolation hK hallows.1 s.world) Program.follows_self
    (.inl rfl) hcall (h.allOnly_of_allows hallows)
  rcases hagree s.world s.world ⟨rfl, h.world, fun _ _ _ ↦ rfl⟩ with
    ⟨hlax, -⟩ | ⟨σ', hσ, ⟨-, hworld, hframe⟩, -, hreply⟩
  · exact hlax.elim
  · rw [world_perform]
    refine ⟨⟨σ', ?_⟩, hframe⟩
    have hknown : ∀ v ∈ s.known, v.Only (· ∈ σ') := fun v hv ↦
      (h.known v hv).mono fun c hc ↦ hσ hc
    unfold Session.perform
    dsimp only
    split
    · rename_i reply houtcome
      obtain ⟨hscopes, hvalues⟩ := hreply reply houtcome
      rw [hscopes, List.append_nil]
      refine ⟨hworld, fun v hv ↦ ?_⟩
      rcases List.mem_append.mp hv with hv | hv
      · exact hknown v hv
      · exact hvalues v hv
    · exact ⟨hworld, hknown⟩

theorem Sound.derive (h : s.Sound K σ) (hid : id < s.world.scopes.size) :
    (s.perform id .derive).Sound K σ := by
  rw [perform_derive]
  have hheld : ∀ other ∈ s.held ++ [s.world.scopes.size], other < s.world.scopes.size + 1 := by
    intro other hother
    rcases List.mem_append.mp hother with hother | hother
    · exact (h.world.held_lt other hother).trans (Nat.lt_succ_self _)
    · exact List.mem_singleton.mp hother ▸ Nat.lt_succ_self _
  refine ⟨h.world.derive hid subset_rfl hheld ⟨?_, ?_, h.world.captors.single⟩, ?_⟩
  · exact fun c hc ↦ (h.world.captors.made c hc).trans (Nat.lt_succ_self _)
  · intro c hc hmem
    rcases List.mem_append.mp hmem with hmem | hmem
    · exact h.world.captors.foreign c hc hmem
    · exact (h.world.captors.made c hc).ne (List.mem_singleton.mp hmem)
  · exact h.known

theorem Sound.scope_derive (h : s.Sound K σ) (id : ScopeId) : ∀ other ∈ s.held, other ≠ id →
    (s.perform id .derive).world.scope other = s.world.scope other := by
  intro other hother _
  rw [perform_derive]
  exact (World.scope_derive s.world id other).trans (if_neg (h.world.held_lt other hother).ne)

/-- One call keeps a session sound, and leaves the other scopes that the host holds as they are. -/
theorem Sound.perform (hK : Scope.Lasting K) (h : s.Sound K σ) (hallows : s.Allows id call)
    (hoperator : ∀ name f op, call = .defineOperator name f op →
      ∀ (scope : Scope) (t : Token), K scope → K (scope.installOperator name t op)) :
    (∃ σ', (s.perform id call).Sound K σ') ∧
      ∀ other ∈ s.held, other ≠ id →
        (s.perform id call).world.scope other = s.world.scope other := by
  have hframe : ∀ (w : World) (f : Scope → Scope), w.scopes = s.world.scopes →
      ∀ other ∈ s.held, other ≠ id → (w.modifyScope id f).scope other = s.world.scope other := by
    intro w f hscopes other _ hne
    rw [World.scope_modifyScope_eq, if_neg fun hid ↦ hne hid.1, World.scope, hscopes, World.scope]
  cases call with
  | eval | evaluate | push | pop | assign | define => exact h.perform_of_plain hK hallows rfl
  | derive => exact ⟨⟨σ, h.derive (h.world.held_lt id hallows.1)⟩, h.scope_derive id⟩
  | reserve name =>
    rw [perform_reserve]
    have hworld := h.world.modifyScope id (fun scope ↦ scope.reserve name) (h.world.bound id)
      (hK.reserve name)
    exact ⟨⟨σ, hworld, h.known⟩, hframe s.world _ rfl⟩
  | defineOperator name f op =>
    rw [perform_defineOperator]
    have hfresh : World.Isolated K s.held σ { s.world with nextRef := s.world.nextRef + 1 } :=
      ⟨h.world.held_lt, h.world.captors, h.world.bound, h.world.kept, h.world.host⟩
    have hf := (Value.only_iff _).mp (h.allOnly_of_allows hallows _ (List.mem_singleton_self _))
    have hworld := hfresh.modifyScope id (fun scope ↦ scope.installOperator name
      (.stable (.function (.renamed name f) s.world.nextRef)) op) ?_ (hoperator name f op rfl _ _)
    · exact ⟨⟨σ, hworld, h.known⟩, hframe _ _ rfl⟩
    · intro b hb
      have hstore : ∀ (scope : Scope) (t : Token),
          (scope.installOperator name t op).store = scope.store.push name t := fun _ _ ↦ rfl
      rw [hstore, toList_push] at hb
      rcases List.mem_append.mp hb with hb | hb
      · exact h.world.bound id b hb
      · cases List.mem_singleton.mp hb
        exact (Value.only_iff _).mpr hf

/-- Several calls keep a session sound. -/
theorem Sound.run (hK : Scope.Lasting K) (h : s.Sound K σ) {steps : List (ScopeId × HostCall)}
    (hlegal : s.Legal steps) (hoperator : ∀ step ∈ steps, ∀ name f op,
      step.2 = .defineOperator name f op →
      ∀ (scope : Scope) (t : Token), K scope → K (scope.installOperator name t op)) :
    ∃ σ', (s.run steps).Sound K σ' := by
  induction steps generalizing s σ with
  | nil => exact ⟨σ, h⟩
  | cons step steps ih =>
    obtain ⟨hfirst, hrest⟩ := List.forall_mem_cons.mp hoperator
    obtain ⟨σ', h'⟩ := (h.perform hK hlegal.1 hfirst).1
    exact ih h' hlegal.2 hrest

/-- A new session is sound without any captor: a look through the table shows that no token of the
standard library holds one. -/
theorem sound_new (settings : Settings) {host : Host} (hhost : host.Honest)
    (hroot : K ((World.new settings host).scope World.root)) :
    (Session.new settings host).Sound K ∅ := by
  have hplain : (Prelude.table.all fun b ↦ b.2.captor?.isNone && b.2.parts.isEmpty) = true := rfl
  refine ⟨⟨?_, ⟨?_, ?_, ?_⟩, ?_, ?_, hhost⟩, ?_⟩
  · intro id hid
    exact List.mem_singleton.mp hid ▸ Nat.one_pos
  · exact fun c hc ↦ hc.elim
  · exact fun c hc ↦ hc.elim
  · exact fun c _ hc ↦ hc.elim
  · intro id b hb
    cases id with
    | zero =>
      rw [show (Session.new settings host).world.scope 0 =
        (World.new settings).scope World.root from rfl, World.toList_new] at hb
      have hb := Bool.and_eq_true_iff.mp (List.all_eq_true.mp hplain b hb)
      exact Token.only_of_plain (Option.isNone_iff_eq_none.mp hb.1) (List.isEmpty_iff.mp hb.2)
    | succ id =>
      have hempty : ((Session.new settings host).world.scope (id + 1)).store.toList = [] :=
        StackMap.toList_withHash _ _
      rw [hempty] at hb
      exact absurd hb List.not_mem_nil
  · intro id hid
    obtain rfl : id = World.root := Nat.lt_one_iff.mp hid
    exact hroot
  · exact fun v hv ↦ absurd hv List.not_mem_nil

/-- Scopes that a host holds are isolated. -/
theorem scope_perform_of_ne (settings : Settings) {steps : List (ScopeId × HostCall)}
    (hsteps : (Session.new settings).Legal steps) :
    let s := (Session.new settings).run steps
    Captor.Private s.held s.world.scopes.size s.Knows ∧
    ∀ id call, s.Allows id call →
      (∀ other ∈ s.held, other ≠ id →
        (s.perform id call).world.scope other = s.world.scope other) ∧
      ∀ alarm : EvalM Reduction, (call.runBy (Program.stepGuarded (fun w scan ↦
          Captor.Private s.held w.scopes.size fun c ↦
            w.Binds c ∨ ∃ t ∈ scan.buffer, t.Captures c) alarm) id).run.run s.world =
        (call.run id).run.run s.world := by
  intro s
  have hK : Scope.Lasting fun _ ↦ True := ⟨fun _ _ ↦ trivial, fun _ _ ↦ trivial⟩
  have hnew := sound_new settings (K := fun _ ↦ True) Host.usual_honest trivial
  obtain ⟨σ, hs⟩ := hnew.run hK hsteps fun _ _ _ _ _ _ _ _ _ ↦ trivial
  refine ⟨hs.world.captors.mono fun c hc ↦ hs.mem_of_knows hc, fun id call hallows ↦ ⟨?_, ?_⟩⟩
  · exact (hs.perform hK hallows fun _ _ _ _ _ _ _ ↦ trivial).2
  · refine hs.guarded hK hallows fun σ w scan hw hscan ↦ hw.captors.mono ?_
    rintro c (hc | ⟨t, ht, hc⟩)
    · exact hw.mem_of_binds hc
    · exact hscan t ht c hc

/-- A derived scope in which a text is evaluated, and the root beside it. -/
theorem scope_perform_of_ne_derived :
    let s := (Session.new ⟨"", false, 0, 1⟩).run [(World.root, .derive)]
    let call := HostCall.eval 50 "\x7bdefn f [x] \x7bdef y x\x7d\x7d (f 1)".toList
    s.Allows 1 call ∧
      (s.perform 1 call).world.scope World.root = s.world.scope World.root := by
  intro s call
  have hlegal : (Session.new ⟨"", false, 0, 1⟩).Legal [(World.root, .derive)] :=
    ⟨⟨List.mem_singleton_self _, Token.allOnly_nil⟩, trivial⟩
  have hheld : s.held = [World.root, 1] := rfl
  have hallows : s.Allows 1 call :=
    ⟨hheld ▸ List.mem_cons_of_mem _ (List.mem_singleton_self 1), Token.allOnly_nil⟩
  have hroot : World.root ∈ s.held := hheld ▸ List.mem_cons_self
  exact ⟨hallows, ((scope_perform_of_ne _ hlegal).2 1 call hallows).1 World.root hroot
    Nat.zero_ne_one⟩

end Session

end TokenLang
