import Quarks.Routing.SameService

/-!
# Shared routes that read a key

The callbacks that remove, read and look for a key. Over TCP a missing key is read as an empty one,
and the callback that looks for a key looks for the text of the body.
-/

namespace Quarks

open Basis

namespace Routing

section

variable [HashOrder] [UnstableSort] {c : Config} {outside : Outside} {n : Node} {request : Bytes}
  {route : Bytes} {req : HttpRouter.Request} {x : RValue} (hmirrors : Mirrors route req x)
  (hload : load request = some x)
include hmirrors hload

/-! ## Single keys -/

/-- Both callbacks refuse an empty key. -/
theorem servesAlike_remove (hroute : route = ascii "/remove") :
    ServesAlike n (dispatch c outside request) (HttpRouter.routeCoreRemovekeyCallback c req) ↔
      IsAnswered c n request ∧ IsAccepted x := by
  subst hroute
  refine servesAlike_iff_isAccepted hmirrors hload ?_ fun r hmake hreads => ?_
  · refine (always_catchWhat_of_passes (P := (· ≠ dispatchError)) _ ?_).mono (fun _ h => h)
      fun _ _ => trivial
    split
    · exact Prog.Always.pure (by decide +kernel)
    · refine ((always_remove c req.key).mono (fun _ h => h) fun _ h => h.elim).bind fun r hr =>
        Prog.Always.pure ?_
      have hall : ∀ t ∈ removeAnswers, t ≠ dispatchError := by decide +kernel
      exact hall _ hr
  · rw [dispatch_string (routeCoreRemovekeyCallback c) hmake hreads rfl rfl]
    refine (catchWhat_catchWhat _ _ _).trans ?_
    unfold HttpRouter.routeCoreRemovekeyCallback
    simp only [hreads.key, ofExcept, pure_bind]

/-- The value of a key, as the callback for it answers. -/
def valueText (c : Config) (key : Bytes) : CoreM Bytes := do return (← get c key).getD []

/-- The cache has this text under the key. -/
def IsCached (c : Config) (n : Node) (key text : Bytes) : Prop :=
  c.cacheEnabled = true ∧ n.cache.find? key = some text

omit hmirrors hload [HashOrder] [UnstableSort] in
/-- A text is answered to a lookup whatever RocksDB does only if the cache has it. -/
theorem servesAlike_valueText {key text : Bytes} (htext : text ≠ []) :
    ServesAlike n (valueText c key) (pure text) ↔ IsCached c n key text := by
  constructor
  · intro h
    -- the environment in which the read fails
    obtain ⟨payload, hp, hq, -⟩ := h (onlyReads (0 :: key)) (freshWorld n) rfl
    cases hq
    cases hcache : c.cacheEnabled with
    | true =>
      have hget : Settles (onlyReads (0 :: key)) (LooksAlike c n) (valueText c key)
          (.ok ((n.cache.find? key).getD [])) := by
        unfold valueText get
        rw [if_pos hcache]
        exact ((getCached_settles hcache key).bind_ok (Settles.pure _)).bind_ok (Settles.pure _)
      have hvalue := Except.ok.inj ((hget _ (looksAlike_of_eq n rfl)).1.symm.trans hp)
      refine ⟨hcache, ?_⟩
      cases hfind : n.cache.find? key with
      | none =>
        rw [hfind] at hvalue
        exact absurd hvalue.symm htext
      | some value =>
        rw [hfind] at hvalue
        exact congrArg some hvalue
    | false =>
      have hget : Yields (onlyReads (0 :: key)) n (get c key) (.ok none) := by
        unfold get
        rw [if_neg (by simp [hcache])]
        split
        · have hread := @dbGet_onlyReads n (0 :: key) key
          rwa [if_neg (by simp)] at hread
        · exact Yields.pure none
      have hnone : Yields (onlyReads (0 :: key)) n (valueText c key) (.ok []) :=
        hget.bind_ok (Yields.pure _)
      exact absurd (Except.ok.inj ((hnone _ rfl).1.symm.trans hp)).symm htext
  · rintro ⟨hcache, hfind⟩ faults w hw
    have hyields : Yields faults n (valueText c key) (.ok text) := by
      unfold valueText get
      rw [if_pos hcache]
      exact ((Yields.getCached hfind).bind_ok (Yields.pure _)).bind_ok (Yields.pure _)
    exact ⟨text, (hyields w hw).1, rfl, (hyields w hw).2.trans hw.symm⟩

/-- The answer to a request without the key that it needs. -/
def missingKey : Bytes := ascii "\x7b\"error\": \"parameter 'key' missing\"\x7d"

/-- A value is answered alike if its key is not empty. An empty one is asked for over TCP only,
and a request that is refused there is answered over HTTP. -/
def GetAgrees (c : Config) (n : Node) (req : HttpRouter.Request) (x : RValue) : Prop :=
  (IsAccepted x ∧ (req.key = [] → IsCached c n [] missingKey)) ∨
    (¬IsAccepted x ∧ req.key ≠ [] ∧ IsCached c n req.key dispatchError)

omit hmirrors hload [HashOrder] [UnstableSort] in
theorem ServesAlike.comm {p q : CoreM Bytes} : ServesAlike n p q ↔ ServesAlike n q p := by
  constructor <;> exact fun h faults w hw =>
    let ⟨payload, hp, hq, hnode⟩ := h faults w hw
    ⟨payload, hq, hp, hnode.symm⟩

theorem servesAlike_get (hroute : route = ascii "/get") :
    ServesAlike n (dispatch c outside request) (HttpRouter.routeCoreGetCallback c req) ↔
      IsAnswered c n request ∧ GetAgrees c n req x := by
  subst hroute
  have hvalue : ∀ key, (valueText c key).Always (fun _ => True) PassesBarrier := fun key =>
    (always_harmless (always_get c key)).bind fun _ _ => trivial
  have hhttp : HttpRouter.routeCoreGetCallback c req =
      if req.key = [] then pure missingKey else valueText c req.key := by
    unfold HttpRouter.routeCoreGetCallback
    split
    · rfl
    · exact catchWhat_eq (hvalue req.key)
  have hdispatch : ∀ r, Request.make request = .ok r → ReadsAlike (ascii "/get") req r →
      dispatch c outside request = valueText c req.key := by
    intro r hmake hreads
    rw [dispatch_string (routeCoreGetCallback c) hmake hreads rfl rfl]
    refine (catchWhat_catchWhat _ _ _).trans ?_
    simp only [hreads.key, ofExcept, pure_bind]
    exact catchWhat_eq (hvalue req.key)
  have hanswers : IsAnswered c n request →
      (ServesAlike n (dispatch c outside request) (HttpRouter.routeCoreGetCallback c req) ↔
        GetAgrees c n req x) := by
    intro hanswered
    rw [hhttp, GetAgrees]
    rcases make_or_refused outside hmirrors hload hanswered with
      ⟨haccepted, r, hmake, hreads⟩ | ⟨haccepted, hrefused⟩
    · simp only [haccepted, true_and, not_true_eq_false, false_and, or_false]
      have hsame := hdispatch r hmake hreads
      by_cases hkey : req.key = []
      · rw [if_pos hkey, hsame, hkey, servesAlike_valueText (by decide +kernel)]
        exact ⟨fun h _ => h, fun h => h rfl⟩
      · rw [if_neg hkey]
        exact iff_of_true (servesAlike_of_eq hmirrors hload hsame hanswered)
          fun h => absurd h hkey
    · simp only [haccepted, false_and, not_false_eq_true, true_and, false_or]
      rw [hrefused, ServesAlike.comm]
      by_cases hkey : req.key = []
      · rw [if_pos hkey]
        refine iff_of_false (not_servesAlike (P := (· = missingKey)) (Q := (· = dispatchError))
          (E := fun _ => True) (F := fun _ => True) rfl rfl ?_) fun h => h.1 hkey
        rintro _ rfl
        decide +kernel
      · rw [if_neg hkey, servesAlike_valueText (by decide +kernel)]
        exact ⟨fun h => ⟨hkey, h⟩, fun h => h.2⟩
  constructor
  · intro h
    have hanswered := h.isAnswered hmirrors hload
    exact ⟨hanswered, (hanswers hanswered).mp h⟩
  · rintro ⟨hanswered, hagrees⟩
    exact (hanswers hanswered).mpr hagrees

/-- Whether a key exists is answered alike if there is one, and if neither it nor the empty key,
which is looked up over TCP, is stored. -/
structure ExistsAgrees (c : Config) (n : Node) (req : HttpRouter.Request) : Prop where
  key : req.key ≠ []
  absent : c.dbOk = true → n.db.find? req.key = none ∧ n.db.find? [] = none

/-- The answer to the question whether a key exists. -/
def existsText (found : Option Bytes) : Bytes :=
  if found.isSome then ascii "\x7b\"result\":true\x7d" else ascii "\x7b\"result\":false\x7d"

/-- Whether a key exists, as the callback for it answers. -/
def pairText (c : Config) (key : Bytes) : CoreM Bytes := do return (← getKeyValuePair c key).2

omit hmirrors hload [HashOrder] [UnstableSort] in
theorem pairText_yields {faults : Faults} {key : Bytes} {found : Option Bytes}
    (hdb : c.dbOk = true) (hfound : Yields faults n (dbGet key) (.ok found)) :
    Yields faults n (pairText c key) (.ok (existsText found)) := by
  unfold pairText getKeyValuePair
  rw [if_pos hdb]
  refine Yields.bind_ok (hfound.bind_ok (a := found) (r := .ok (found, existsText found)) ?_)
    (Yields.pure _)
  cases found <;> exact Yields.pure _

omit hmirrors hload [HashOrder] [UnstableSort] in
/-- Two keys are answered alike, whatever RocksDB does, if neither is stored. -/
theorem servesAlike_pairText {key key' : Bytes} (hne : key ≠ key') :
    ServesAlike n (pairText c key) (pairText c key') ↔
      (c.dbOk = true → n.db.find? key = none ∧ n.db.find? key' = none) := by
  have htexts : ∀ found, existsText found = existsText none → found = none := by
    rintro (_ | value) h
    · rfl
    · exact absurd h (by decide +kernel : ascii "\x7b\"result\":true\x7d" ≠
        ascii "\x7b\"result\":false\x7d")
  constructor
  · intro h hdb
    have hread : ∀ faults found found', Yields faults n (dbGet key) (.ok found) →
        Yields faults n (dbGet key') (.ok found') → existsText found = existsText found' := by
      intro faults found found' hfound hfound'
      obtain ⟨payload, hp, hq, -⟩ := h faults (freshWorld n) rfl
      have hp' := (pairText_yields hdb hfound _ rfl).1.symm.trans hp
      have hq' := (pairText_yields hdb hfound' _ rfl).1.symm.trans hq
      rw [Except.ok.inj hp', Except.ok.inj hq']
    -- either key is looked up alone
    have hkey := hread (onlyReads key) _ _ (dbGet_onlyReads key) (dbGet_onlyReads key')
    have hkey' := hread (onlyReads key') _ _ (dbGet_onlyReads key) (dbGet_onlyReads key')
    rw [if_pos rfl, if_neg hne.symm] at hkey
    rw [if_neg hne, if_pos rfl] at hkey'
    exact ⟨htexts _ hkey, htexts _ hkey'.symm⟩
  · intro h faults w hw
    cases hdb : c.dbOk with
    | false =>
      have hyields : ∀ key, Yields faults n (pairText c key)
          (.ok (ascii "\x7b\"error\":\"db status error\"\x7d")) := by
        intro key
        unfold pairText getKeyValuePair
        rw [if_neg (by simp [hdb])]
        exact (Yields.pure _).bind_ok (Yields.pure _)
      obtain ⟨hp, hnode⟩ := hyields key w hw
      obtain ⟨hq, hnode'⟩ := hyields key' w hw
      exact ⟨_, hp, hq, hnode.trans hnode'.symm⟩
    | true =>
      have habsent : ∀ key, n.db.find? key = none →
          Yields faults n (pairText c key) (.ok (existsText none)) := by
        intro key hnone
        refine pairText_yields hdb fun w hw => ⟨?_, hw⟩
        subst hw
        change Except.ok (if faults w.calls (.get key) = true then none
          else w.node.db.find? key) = _
        rw [hnone, ite_self]
      obtain ⟨hp, hnode⟩ := habsent key (h hdb).1 w hw
      obtain ⟨hq, hnode'⟩ := habsent key' (h hdb).2 w hw
      exact ⟨_, hp, hq, hnode.trans hnode'.symm⟩

omit hmirrors hload [HashOrder] [UnstableSort] in
theorem always_pairText (key : Bytes) : (pairText c key).Always
    (fun text => text ≠ missingKey ∧ text ≠ dispatchError) PassesBarrier := by
  have hall : ∀ t ∈ [ascii "\x7b\"result\":true\x7d", ascii "\x7b\"result\":false\x7d",
      ascii "\x7b\"error\":\"db status error\"\x7d"], t ≠ missingKey ∧ t ≠ dispatchError := by
    decide +kernel
  exact ((always_getKeyValuePair c key).mono (fun _ h => h) fun _ h => h.elim).bind fun r hr =>
    Prog.Always.pure (hall _ hr)

theorem servesAlike_exists (hroute : route = ascii "/exists") :
    ServesAlike n (dispatch c outside request) (HttpRouter.routeCoreExistkeyCallback c req) ↔
      IsAnswered c n request ∧ IsAccepted x ∧ ExistsAgrees c n req := by
  subst hroute
  have hhttp : HttpRouter.routeCoreExistkeyCallback c req =
      if req.key = [] then pure missingKey else pairText c req.key := by
    unfold HttpRouter.routeCoreExistkeyCallback
    split
    · rfl
    · exact catchWhat_eq (always_pairText req.key)
  have hdispatch : ∀ r, Request.make request = .ok r → ReadsAlike (ascii "/exists") req r →
      dispatch c outside request = pairText c [] := by
    intro r hmake hreads
    rw [dispatch_string (routeCoreExistkeyCallback c) hmake hreads rfl rfl,
      routeCoreExistkeyCallback, hreads.body]
    exact catchWhat_eq (always_pairText [])
  rw [hhttp]
  refine servesAlike_iff hmirrors hload ?_ (fun r hmake hreads hanswered hagrees => ?_)
    fun r hmake hreads hdiffers => ?_
  · split
    · exact Prog.Always.pure (by decide +kernel)
    · exact (always_pairText req.key).mono (fun _ h => h.2) fun _ _ => trivial
  · rw [hdispatch r hmake hreads, if_neg hagrees.key, ServesAlike.comm,
      servesAlike_pairText hagrees.key]
    exact hagrees.absent
  · rw [hdispatch r hmake hreads]
    by_cases hkey : req.key = []
    · rw [if_pos hkey]
      exact not_servesAlike (Q := (· = missingKey)) (F := fun _ => True) (always_pairText [])
        (Prog.Always.pure rfl) fun _ h => h.1
    · rw [if_neg hkey, ServesAlike.comm, servesAlike_pairText hkey]
      exact fun habsent => hdiffers ⟨hkey, habsent⟩

end

end Routing

end Quarks
