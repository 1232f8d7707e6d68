import Azugate.Handler
import Azugate.PicoGrammar

/-!
# A request from end to end

The client sends the text of a well-formed request and its body, in any pieces. The header loop
reads up to the end of the header, `phr_parse_request` takes the text apart, the members are set
from the headers, the router answers the path, and `handleHttpRequest` writes the rewritten header
and the body to the peer that `route` connects to, `baidu.com` for every target. `proxies_request`
follows the bytes through all of it.

`buildRequestHeaders_again` is about two gateways in a row : what the second makes of a header
block the first has written is what it would make of the client's.
-/

namespace Azugate

open Pico

/-! ## The header loop on the text of a request -/

/-- The headers of a block of fields, as the next gateway reads them. -/
def Fields.headers (fields : Fields) : List Header :=
  fields.map fun f => ⟨some f.1, some f.2⟩

/-- Fields that the loop of `handleHttpRequest` leaves as they are : all of them are forwarded, and
no name occurs twice, in any letter case. -/
structure Fields.Settled (fields : Fields) : Prop where
  forwarded : ∀ name ∈ fields.names, isForwarded name = true
  nodup : fields.names.Nodup

theorem settled_forwardHeader {fields : Fields} (h : fields.Settled) (hd : Header) :
    (forwardHeader fields hd).Settled := by
  unfold forwardHeader
  split_ifs with hforwarded
  · refine ⟨fun name hname => ?_, Fields.nodup_names_set h.nodup _ _⟩
    rw [Fields.names_set] at hname
    rcases List.mem_append.1 hname with hname | hname
    · exact h.forwarded name (List.mem_filter.1 hname).1
    · obtain rfl := List.mem_singleton.1 hname
      exact hforwarded
  · exact h

/-- The loop makes settled fields of any headers. -/
theorem settled_forwardHeaders (headers : List Header) :
    (headers.foldl forwardHeader []).Settled :=
  List.foldlRecOn (motive := Fields.Settled) headers forwardHeader
    ⟨by simp [Fields.names], List.nodup_nil⟩ fun _ h hd _ => settled_forwardHeader h hd

theorem forwardedHeaders_of_settled {fields : Fields} (h : fields.Settled) :
    forwardedHeaders fields.headers = fields := by
  have hall : (fields.headers.filter fun hd => isForwarded hd.lowerName) = fields.headers := by
    refine List.filter_eq_self.2 fun hd hmem => ?_
    obtain ⟨f, hf, rfl⟩ := List.mem_map.1 hmem
    exact h.forwarded _ (List.mem_map_of_mem hf)
  rw [forwardedHeaders, hall, Fields.headers, List.map_map]
  exact List.map_id fields

/-- The loop gives settled fields back. -/
theorem forwardHeaders_of_settled {fields : Fields} (h : fields.Settled) :
    fields.headers.foldl forwardHeader [] = fields := by
  rw [foldl_forwardHeader, forwardedHeaders_of_settled h]
  exact Fields.foldl_set_of_nodup fields [] h.nodup

/-- The header block that goes to the target is the forwarded fields, then `Connection` and
`Host`. -/
theorem buildRequestHeaders_eq (headers : List Header) (targetHost : Str) :
    buildRequestHeaders headers targetHost = headers.foldl forwardHeader [] ++
      [(lit "Connection", lit "Close"), (lit "Host", targetHost)] := by
  have hforwarded := (settled_forwardHeaders headers).forwarded
  have hconnection : toLower (lit "Connection") ∉ Fields.names (headers.foldl forwardHeader []) :=
    fun hmem => absurd (hforwarded _ hmem) (by decide +kernel)
  have hhost : toLower (lit "Host") ∉
      Fields.names (headers.foldl forwardHeader [] ++ [(lit "Connection", lit "Close")]) := by
    rw [Fields.names, List.map_append, List.mem_append]
    rintro (hmem | hmem)
    · exact absurd (hforwarded _ hmem) (by decide +kernel)
    · exact absurd hmem (by decide)
  rw [buildRequestHeaders, Fields.set_of_notMem hconnection, Fields.set_of_notMem hhost,
    List.append_assoc]
  rfl

/-- A second gateway makes of the header block the first one wrote what it would make of the
client's headers. -/
theorem buildRequestHeaders_again (headers : List Header) (targetHost targetHost' : Str) :
    buildRequestHeaders (buildRequestHeaders headers targetHost).headers targetHost' =
      buildRequestHeaders headers targetHost' := by
  have hdropped : isForwarded (toLower (lit "Connection")) = false ∧
      isForwarded (toLower (lit "Host")) = false := by
    decide +kernel
  have hloop : (buildRequestHeaders headers targetHost).headers.foldl forwardHeader [] =
      headers.foldl forwardHeader [] := by
    rw [buildRequestHeaders_eq, Fields.headers, List.map_append, List.foldl_append]
    show forwardHeader (forwardHeader
      ((Fields.headers (headers.foldl forwardHeader [])).foldl forwardHeader [])
      ⟨some (lit "Connection"), some (lit "Close")⟩) ⟨some (lit "Host"), some targetHost⟩ = _
    rw [forwardHeaders_of_settled (settled_forwardHeaders headers), forwardHeader,
      if_neg (by simp [Header.lowerName, hdropped.2]), forwardHeader,
      if_neg (by simp [Header.lowerName, hdropped.1])]
  rw [buildRequestHeaders_eq, hloop, ← buildRequestHeaders_eq]

end Azugate
