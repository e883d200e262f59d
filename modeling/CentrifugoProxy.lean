import CentrifugoProxy.Dispatch
import CentrifugoProxy.Handler
import CentrifugoProxy.Proof.Invariant
import CentrifugoProxy.Proof.Preservation
import CentrifugoProxy.Proof.History
import CentrifugoProxy.Proof.Lifecycle
import CentrifugoProxy.Proof.Election
import CentrifugoProxy.Proof.SharedResult
import CentrifugoProxy.Proof.Outcomes
import CentrifugoProxy.Proof.Progress
import CentrifugoProxy.Proof.Channels
import CentrifugoProxy.Timed
import CentrifugoProxy.Proof.TimedInvariant
import CentrifugoProxy.Proof.Timing
