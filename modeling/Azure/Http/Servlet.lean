import Azure.Http.Accessors
import Azure.Reasoning.Registry

/-!
# Servlets (`servlet.cpp`)

What a callback does to the request, to the response and to everything else is a function.  The
pattern match is that of the C library.  Each member function holds the lock, so that a history of calls
from several threads is a sequence.
-/

namespace Azure

open Reasoning

abbrev Handle (World : Type) :=
  World → HttpRequest → HttpResponse → World × HttpRequest × HttpResponse

/-- `FunctionServlet`, or another class with a `handle` of its own, and `NotFoundServlet`. -/
inductive Servlet (World : Type) where
  | function (cb : Handle World)
  | notFound

/-- `RSP_BODY` -/
def notFoundBody : Bytes :=
  ascii ("<html><head><title>404 Not Found".toList ++
    "</title></head><body><center><h1>404 Not Found</h1></center>".toList ++
    "<hr><center>azure/1.0.0</center></body></html>".toList)

/-- `NotFoundServlet::handle` -/
def HttpResponse.notFound (response : HttpResponse) : HttpResponse :=
  { response with
    status := 404
    headers := (response.headers.set (ascii "Server".toList) (ascii "azure/1.0.0".toList)).set
      (ascii "Content-Type".toList) (ascii "text/html".toList)
    body := notFoundBody }

def Servlet.handle {World : Type} : Servlet World → Handle World
  | function cb => cb
  | notFound => fun w request response => (w, request, response.notFound)

/-- `ServletDispatch`; a pointer to a servlet can be null.  Nothing sees the order of `m_data`. -/
structure ServletDispatch (S : Type) where
  data : List (Bytes × Option S) := []
  globs : List (Bytes × Option S) := []
  default_ : Option S

namespace ServletDispatch

variable {S : Type}

def addServlet (uri : Bytes) (slt : Option S) (d : ServletDispatch S) : ServletDispatch S :=
  { d with data := Registry.put uri slt d.data }

def addGlobServlet (uri : Bytes) (slt : Option S) (d : ServletDispatch S) : ServletDispatch S :=
  { d with globs := Registry.put uri slt d.globs }

def delServlet (uri : Bytes) (d : ServletDispatch S) : ServletDispatch S :=
  { d with data := Registry.drop uri d.data }

def delGlobServlet (uri : Bytes) (d : ServletDispatch S) : ServletDispatch S :=
  { d with globs := Registry.drop uri d.globs }

def setDefault (v : Option S) (d : ServletDispatch S) : ServletDispatch S := { d with default_ := v }

/-- `getServlet`; a null pointer stands for a servlet that is not there. -/
def getServlet (uri : Bytes) (d : ServletDispatch S) : Option S := (Registry.find uri d.data).join

def getGlobServlet (uri : Bytes) (d : ServletDispatch S) : Option S :=
  (Registry.find uri d.globs).join

/-- `getMatchedServlet`; `fnmatch` is whether a pattern matches a string, with no flags. -/
def getMatchedServlet (fnmatch : Bytes → Bytes → Bool) (uri : Bytes) (d : ServletDispatch S) :
    Option S :=
  match Registry.find uri d.data with
  | some slt => slt
  | none =>
    match d.globs.find? fun g => fnmatch (cStr g.1) (cStr uri) with
    | some g => g.2
    | none => d.default_

def handle {World : Type} (fnmatch : Bytes → Bytes → Bool) (d : ServletDispatch (Servlet World)) :
    Handle World := fun w request response =>
  match d.getMatchedServlet fnmatch request.path with
  | some slt => slt.handle w request response
  | none => (w, request, response)

/-! ## Histories -/

inductive Call (S : Type) where
  | addServlet (uri : Bytes) (slt : Option S)
  | addGlobServlet (uri : Bytes) (slt : Option S)
  | delServlet (uri : Bytes)
  | delGlobServlet (uri : Bytes)
  | setDefault (v : Option S)

def call (d : ServletDispatch S) : Call S → ServletDispatch S
  | .addServlet uri slt => d.addServlet uri slt
  | .addGlobServlet uri slt => d.addGlobServlet uri slt
  | .delServlet uri => d.delServlet uri
  | .delGlobServlet uri => d.delGlobServlet uri
  | .setDefault v => d.setDefault v

def run (slt : Option S) (calls : List (Call S)) : ServletDispatch S :=
  calls.foldl call { default_ := slt }

namespace Call

def exact : Call S → Option (Registry.Op Bytes (Option S))
  | addServlet uri slt => some (.put uri slt)
  | delServlet uri => some (.drop uri)
  | _ => none

def glob : Call S → Option (Registry.Op Bytes (Option S))
  | addGlobServlet uri slt => some (.put uri slt)
  | delGlobServlet uri => some (.drop uri)
  | _ => none

def default_ : Call S → Option (Option S)
  | setDefault v => some v
  | _ => none

end Call

/-- What a request for a URI is given to after a sequence of calls: the servlet that was added last for
the URI itself, if it is still there; else that of the matching pattern whose registration, among those
that nothing later has touched, came first; else the default that was set last. -/
def Routed (fnmatch : Bytes → Bytes → Bool) (slt : Option S) (calls : List (Call S)) (uri : Bytes) :
    Option S :=
  match Registry.latest (calls.filterMap Call.exact) uri with
  | some s => s
  | none =>
    match (Registry.surviving (calls.filterMap Call.glob)).find?
        fun g => fnmatch (cStr g.1) (cStr uri) with
    | some g => g.2
    | none => (calls.filterMap Call.default_).getLast?.getD slt

theorem run_append (slt : Option S) (calls : List (Call S)) (c : Call S) :
    run slt (calls ++ [c]) = (run slt calls).call c := by
  rw [run, List.foldl_append]
  rfl

/-- The three parts of a dispatcher, each after the calls that are about it. -/
theorem run_eq (slt : Option S) (calls : List (Call S)) :
    (run slt calls).data = Registry.run [] (calls.filterMap Call.exact) ∧
      (run slt calls).globs = Registry.run [] (calls.filterMap Call.glob) ∧
      (run slt calls).default_ = (calls.filterMap Call.default_).getLast?.getD slt := by
  induction calls using List.reverseRecOn with
  | nil => exact ⟨rfl, rfl, rfl⟩
  | append_singleton calls c ih =>
    obtain ⟨hdata, hglobs, hdefault⟩ := ih
    have hstep : ∀ (ops : List (Registry.Op Bytes (Option S))) o,
        Registry.run [] (ops ++ [o]) = Registry.step (Registry.run [] ops) o := by
      intro ops o
      rw [Registry.run, List.foldl_append]
      rfl
    rw [run_append]
    simp only [List.filterMap_append]
    -- each call is about one of the three parts and leaves the others alone
    cases c with
    | addServlet uri slt | delServlet uri =>
      refine ⟨?_, ?_, ?_⟩
      · rw [show ([_] : List (Call S)).filterMap Call.exact = [_] from rfl, hstep, ← hdata]
        rfl
      · rw [show ([_] : List (Call S)).filterMap Call.glob = [] from rfl, List.append_nil]
        exact hglobs
      · rw [show ([_] : List (Call S)).filterMap Call.default_ = [] from rfl, List.append_nil]
        exact hdefault
    | addGlobServlet uri slt | delGlobServlet uri =>
      refine ⟨?_, ?_, ?_⟩
      · rw [show ([_] : List (Call S)).filterMap Call.exact = [] from rfl, List.append_nil]
        exact hdata
      · rw [show ([_] : List (Call S)).filterMap Call.glob = [_] from rfl, hstep, ← hglobs]
        rfl
      · rw [show ([_] : List (Call S)).filterMap Call.default_ = [] from rfl, List.append_nil]
        exact hdefault
    | setDefault v =>
      refine ⟨?_, ?_, ?_⟩
      · rw [show ([_] : List (Call S)).filterMap Call.exact = [] from rfl, List.append_nil]
        exact hdata
      · rw [show ([_] : List (Call S)).filterMap Call.glob = [] from rfl, List.append_nil]
        exact hglobs
      · rw [show ([Call.setDefault v] : List (Call S)).filterMap Call.default_ = [v] from rfl,
          List.getLast?_concat]
        rfl

/-- Requests go where the history of the dispatcher says, and so do look-ups. -/
theorem getMatchedServlet_run (fnmatch : Bytes → Bytes → Bool) (slt : Option S) (calls : List (Call S))
    (uri : Bytes) :
    (run slt calls).getMatchedServlet fnmatch uri = Routed fnmatch slt calls uri ∧
      (run slt calls).getServlet uri = (Registry.latest (calls.filterMap Call.exact) uri).join ∧
      (run slt calls).getGlobServlet uri = (Registry.latest (calls.filterMap Call.glob) uri).join := by
  obtain ⟨hdata, hglobs, hdefault⟩ := run_eq slt calls
  refine ⟨?_, ?_, ?_⟩
  · rw [getMatchedServlet, Routed, hdata, hglobs, hdefault, Registry.find_run, Registry.run_nil]
  · rw [getServlet, hdata, Registry.find_run]
  · rw [getGlobServlet, hglobs, Registry.find_run]

end ServletDispatch

end Azure
