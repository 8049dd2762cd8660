import OneLink.Groups.Outsider
import OneLink.Crdt.Convergence
import OneLink.DoubleRatchet.Eviction
import OneLink.State.SelfMeshDevice
import OneLink.State.GroupRestart
import OneLink.State.MessageReplay
import OneLink.State.OutboxAccounting
import OneLink.State.RemoteInstruction
import OneLink.Channel.CutoverSafety
import OneLink.Canon.Injective
import OneLink.DeviceMesh.AntiEntropy
import OneLink.Wal.Corruption
import OneLink.Wal.FlushFailure
import OneLink.ChunkKeys.Once
import OneLink.DeletionChain.Erasure
import OneLink.ThresholdRecovery.Refresh
import OneLink.IdentityDag.Binding
import OneLink.UiDelivery.AtMostOnce
import OneLink.CapGrants.Lifetime
import OneLink.CallSession.Convergence
import OneLink.PairQr.Agreement
import OneLink.ChunkStore.Pending
import OneLink.Aead.Binding
import OneLink.Crdt.Conflict
import OneLink.Crdt.NativeMerge
import OneLink.Discovery.RecordHistory
import OneLink.DoubleRatchet.InPlace
import OneLink.Fuse.Mount
import OneLink.Merkle.Drift
import OneLink.NativeCrdt.Causal
import OneLink.Onion.Delivery
import OneLink.Sphinx.Delivery
import OneLink.Canon.Limit
import OneLink.Canon.Minimal
import OneLink.Channel.PqHandshake
import OneLink.Merkle.ManifestRoot
import OneLink.Replay.Window
import OneLink.ThresholdRecovery.Threshold
import OneLink.DeviceMesh.Convergence
import OneLink.DeviceMesh.Counter
import OneLink.DeviceMesh.TransferProgress
import OneLink.Compress.RangeCanonical
import OneLink.Fec.Recovery
import OneLink.DeviceMesh.MultiPath
import OneLink.DeviceMesh.Repair
import OneLink.TreeKem.Paths
import OneLink.Capabilities.Wire
import OneLink.Discovery.Lookup
import OneLink.Update.Symlink
import OneLink.Pcdc.SafeScan
import OneLink.Wal.Positions
import OneLink.Fountain.Useful
import OneLink.Mnemonic.Phrase
import OneLink.Resume.Inbox
import OneLink.TransportObfs.Handshake
