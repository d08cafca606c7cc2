import Q2NS.RegistryInvariant
import Q2NS.FailedApply
import Q2NS.Projective
import Q2NS.Simulation
import Q2NS.Isolation
import Q2NS.SeedDerivation
import Q2NS.ControlStream
import Q2NS.Swap.Planning
import Q2NS.Network.Links
import Q2NS.Teleport.Sessions
import Q2NS.Swap.Completion
import Q2NS.BellMeasurement
import Q2NS.Groups
import Q2NS.Maps.RandomGate
import Q2NS.Teleport.Ports
import Q2NS.Teleport.Delivery
import Q2NS.Network.Rejected
import Q2NS.Maps.QMap
import Q2NS.Maps.Compose
import Q2NS.Maps.Dropped
import Q2NS.Maps.InNetwork
import Q2NS.Registry.LocationIndex
import Q2NS.Registry.MergeOrder
import Q2NS.Registry.Registrations
import Q2NS.Registry.Assigner
import Q2NS.Streams
import Q2NS.PartialTrace
import Q2NS.Independent
import Q2NS.RepeatedHandles
import Q2NS.Reproducible
import Q2NS.Swap.Listening
import Q2NS.Swap.EndToEnd
import Q2NS.Classical.Builder
import Q2NS.Classical.Addresses
import Q2NS.Classical.Interfaces
import Q2NS.Lib.Bfs
import Q2NS.Lib.Json
import Q2NS.Lib.LocalComplement
import Q2NS.Lib.UnionFind
import Q2NS.Viz.TraceWriter
import Q2NS.Viz.Trace
import Q2NS.Viz.GraphState
import Q2NS.Viz.EntangleGroups
import Q2NS.Classical.Routes
import Q2NS.Machine.NoSignalling
import Q2NS.Maps.NoisySwap
import Q2NS.Fidelity
