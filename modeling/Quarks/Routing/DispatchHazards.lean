import Quarks.Routing.JoinHazards
import Quarks.Routing.ListingHazards

/-!
# What brings a request down

`Router::dispatch` stops runtime errors only. So a request is answered if what its constructor
reads raises nothing else, and if the callback it selects is not brought down.
-/

namespace Quarks

open Basis

namespace Routing

section

variable [HashOrder] (c : Config) (outside : Outside) (n : Node) (req : Request)

/-- The callbacks that can be brought down, each with what keeps it from that. -/
def hazards : List (Bytes × Prop) :=
  [(ascii "/getkeys", GetkeysEnds c n req),
    (ascii "/getcount", GetcountEnds c n req),
    (ascii "/incr", OnBody req StepReads),
    (ascii "/backup", OnBody req (BackupStarts c)),
    (ascii "/test", TimeoutReads req),
    (ascii "/getall", GetallReads c n req),
    (ascii "/getsorted", GetsortedReads c n req),
    (ascii "/iter", IterReads c n req),
    (ascii "/getjson", OnBody req (GetjsonReads c n)),
    (ascii "/getitems", OnBody req (GetitemsReads c n req)),
    (ascii "/getjoinedmap", OnBody req (GetjoinedmapReads c n req)),
    (ascii "/getkeysafter", OnBody req (GetkeysafterReads c n req)),
    (ascii "/getkeyslast", OnBody req (GetkeyslastReads c n)),
    (ascii "/searchjson", OnBody req (SearchjsonReads c n req))]

/-- The callback of this name is not brought down by the request. -/
def Survives (name : Bytes) : Prop := ∀ hazard ∈ hazards c n req, hazard.1 = name → hazard.2

/-- The request is answered: its numbers are 64-bit integers, and its callback is not brought
down. -/
def IsAnswered (requestStr : Bytes) : Prop :=
  (∀ x, load requestStr = some x → FieldsRead x) ∧
    ∀ req, Request.make requestStr = .ok req → Survives c n req req.query

section

variable {c : Config} {outside : Outside} {n : Node} {req : Request}

/-! ## The tables -/

/-- The names of the callbacks that can be brought down. -/
def hazardNames : List Bytes := [ascii "/getkeys", ascii "/getcount", ascii "/incr",
  ascii "/backup", ascii "/test", ascii "/getall", ascii "/getsorted", ascii "/iter",
  ascii "/getjson", ascii "/getitems", ascii "/getjoinedmap", ascii "/getkeysafter",
  ascii "/getkeyslast", ascii "/searchjson"]

theorem map_fst_hazards : (hazards c n req).map Prod.fst = hazardNames := rfl

theorem survives_of_mem {name : Bytes} {C : Prop} (h : (name, C) ∈ hazards c n req) :
    Survives c n req name ↔ C := by
  refine forall_entry_iff ?_ h
  rw [map_fst_hazards]
  decide +kernel

theorem survives_of_not_mem {name : Bytes} (h : name ∉ hazardNames) :
    Survives c n req name ↔ True :=
  iff_of_true (fun hazard hmem hname => absurd (List.mem_map.mpr ⟨hazard, hmem, hname⟩) h) trivial

/-- A callback that can be brought down. -/
theorem hazardous {α : Type} {p : CoreM α} {name : Bytes} {C : Prop} (hp : ContainedIff n p C)
    (h : (name, C) ∈ hazards c n req) : ContainedIff n p (Survives c n req name) :=
  hp.congr (survives_of_mem h).symm

/-- A callback that cannot. -/
theorem harmless {α : Type} {p : CoreM α} {name : Bytes} (hp : ContainedIff n p True)
    (h : name ∉ hazardNames) : ContainedIff n p (Survives c n req name) :=
  hp.congr (survives_of_not_mem h).symm

theorem stringCallbacks (h : req.WellFormed) : ∀ r ∈ routingTableString c outside,
    ContainedIff n (r.2 req) (Survives c n req r.1) := by
  obtain ⟨hput, hputjson, hpostjson, hputatom, hremoveatom, hatom, hincrval⟩ :=
    @bodyCallbacks c n req h _
  intro r hr
  simp only [routingTableString, List.mem_cons, List.not_mem_nil, or_false] at hr
  rcases hr with rfl | rfl | rfl | rfl | rfl | rfl | rfl | rfl | rfl | rfl | rfl | rfl | rfl | rfl |
    rfl | rfl | rfl | rfl | rfl | rfl | rfl
  · exact harmless hput (by dsimp only; decide +kernel)
  · exact harmless (existkeyCallback c) (by dsimp only; decide +kernel)
  · exact harmless (getCallback c h) (by dsimp only; decide +kernel)
  · exact hazardous (getkeysCallback h) (by simp [hazards])
  · exact hazardous (getcountCallback h) (by simp [hazards])
  · exact harmless (removekeyCallback c h) (by dsimp only; decide +kernel)
  · exact harmless hremoveatom (by dsimp only; decide +kernel)
  · exact harmless hputjson (by dsimp only; decide +kernel)
  · exact harmless hpostjson (by dsimp only; decide +kernel)
  · exact harmless hputatom (by dsimp only; decide +kernel)
  · exact harmless hatom (by dsimp only; decide +kernel)
  · exact harmless (getlistCallback h) (by dsimp only; decide +kernel)
  · exact hazardous (incrCallback h) (by simp [hazards])
  · exact harmless hincrval (by dsimp only; decide +kernel)
  · exact hazardous (backupCallback h) (by simp [hazards])
  · exact harmless (filetransferCallback outside) (by dsimp only; decide +kernel)
  · exact harmless (@opentcpsocketCallback n req outside) (by dsimp only; decide +kernel)
  · exact harmless ContainedIff.pure (by dsimp only; decide +kernel)
  · exact hazardous (testCallback h) (by simp [hazards])
  · exact harmless ContainedIff.pure (by dsimp only; decide +kernel)
  · exact harmless ContainedIff.pure (by dsimp only; decide +kernel)

variable [UnstableSort]

theorem jsonCallbacks (h : req.WellFormed) : ∀ r ∈ routingTableJson c outside,
    ContainedIff n (r.2 req) (Survives c n req r.1) := by
  intro r hr
  simp only [routingTableJson, List.mem_cons, List.not_mem_nil, or_false] at hr
  rcases hr with rfl | rfl | rfl | rfl | rfl | rfl | rfl | rfl | rfl | rfl | rfl | rfl
  · exact hazardous (getallCallback h) (by simp [hazards])
  · exact hazardous (getsortedCallback h) (by simp [hazards])
  · exact harmless (getkeysmultiCallback c h outside) (by dsimp only; decide +kernel)
  · exact hazardous iterCallback (by simp [hazards])
  · exact harmless (removekeysCallback c h) (by dsimp only; decide +kernel)
  · exact harmless (makeCallback c h outside) (by dsimp only; decide +kernel)
  · exact hazardous (getjsonCallback h) (by simp [hazards])
  · exact hazardous (getitemsCallback h) (by simp [hazards])
  · exact hazardous (getjoinedmapCallback h) (by simp [hazards])
  · exact hazardous (getkeysafterCallback h) (by simp [hazards])
  · exact hazardous (getkeyslastCallback h) (by simp [hazards])
  · exact hazardous (searchjsonCallback h) (by simp [hazards])

/-- No name stands in both tables, and all callbacks that can be brought down are registered. -/
theorem tables_names : (∀ name ∈ (routingTableString c outside).map Prod.fst,
      name ∉ (routingTableJson c outside).map Prod.fst) ∧
    ∀ name ∈ hazardNames, name ∈ (routingTableString c outside).map Prod.fst ∨
      name ∈ (routingTableJson c outside).map Prod.fst := by
  simp only [routingTableString, routingTableJson, List.map_cons, List.map_nil]
  decide +kernel

/-! ## The dispatcher -/

theorem settled_route (h : req.WellFormed) :
    ContainedIff n (route c outside req) (Survives c n req req.query) := by
  unfold route
  cases hstring : (routingTableString c outside).lookup req.query with
  | some callback =>
    have hmem : (req.query, callback) ∈ routingTableString c outside := by
      obtain ⟨l, l', hl, -⟩ := List.lookup_eq_some_iff.mp hstring
      simp [hl]
    have hjson : (routingTableJson c outside).lookup req.query = none := by
      rw [← Option.not_isSome_iff_eq_none, isSome_lookup]
      exact tables_names.1 _ (List.mem_map_of_mem hmem)
    refine (stringCallbacks h _ hmem).andThen fun result => ?_
    simp only [hjson, ite_self]
    exact Contained.pure fun _ _ => trivial
  | none =>
    cases hjson : (routingTableJson c outside).lookup req.query with
    | some callback =>
      have hmem : (req.query, callback) ∈ routingTableJson c outside := by
        obtain ⟨l, l', hl, -⟩ := List.lookup_eq_some_iff.mp hjson
        simp [hl]
      exact (jsonCallbacks h _ hmem).map
    | none =>
      have hunknown : req.query ∉ hazardNames := by
        intro hname
        rcases (@tables_names _ c outside _).2 _ hname with hmem | hmem
        · rw [← isSome_lookup, hstring] at hmem
          cases hmem
        · rw [← isSome_lookup, hjson] at hmem
          cases hmem
      exact harmless ContainedIff.pure hunknown

theorem settled_dispatch {requestStr : Bytes}
    (hobject : ∀ x, load requestStr = some x → ∃ o, x = .object o) :
    ContainedIff n (do
      let req ← ofExcept (Request.make requestStr)
      route c outside req) (IsAnswered c n requestStr) := by
  refine (ContainedIff.ofExcept fun req hreq => ?_).congr
    (and_congr_left fun _ => runtimeOnly_make hobject)
  exact settled_route (Request.make_wellFormed hobject hreq)

end

end

/-- A text with a field is that of an object. -/
theorem exists_object {text name : Bytes}
    (h : ((load text).bind fun x => (x.field name).toOption).isSome = true) :
    ∃ o, load text = some (.object o) := by
  obtain ⟨y, hy⟩ := Option.isSome_iff_exists.mp h
  obtain ⟨x, hx, hy⟩ := Option.bind_eq_some_iff.mp hy
  cases hfield : x.field name with
  | ok y =>
    obtain ⟨o, rfl, -⟩ := RValue.field_cases hfield
    exact ⟨o, hx⟩
  | error f =>
    rw [hfield] at hy
    cases hy

/-- An outside where everything succeeds. -/
def fairOutside : Outside := ⟨fun _ => true, true, .ok true, [], 0, []⟩

end Routing

end Quarks
