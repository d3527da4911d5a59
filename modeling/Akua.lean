import Akua.Lib.Effect
import Akua.Lib.History
import Akua.Lib.Text
import Akua.Lib.Table
import Akua.Lib.Keyed
import Akua.Lib.FileSystem
import Akua.Lib.Utf8
import Akua.Lib.Disk
import Akua.Lib.LinkedDisk
import Akua.Value
import Akua.Host
import Akua.Manifest
import Akua.TomlWrite
import Akua.Lockfile
import Akua.Snapshot
import Akua.Cosign
import Akua.Archive
import Akua.Downloads
import Akua.Oci
import Akua.OciPush
import Akua.Sources
import Akua.Crds
import Akua.Dependencies
import Akua.Render
import Akua.Workspace
import Akua.Verify
import Akua.CacheConfinement
import Akua.Vendor
import Akua.PackageTar
import Akua.VendorNames
import Akua.VendorPins
import Akua.WorkspaceConfinement
import Akua.SignatureGate
import Akua.TreeDigest
import Akua.LockMerge
import Akua.Untar
import Akua.TarBlocks
import Akua.PaxRecord
import Akua.TarRoundTrip
import Akua.CredentialScope
import Akua.DigestAgreement
import Akua.DependencyKinds
import Akua.EngineHost
import Akua.EngineFuel
import Akua.EngineReuse
import Akua.CompositionBounds
import Akua.ResolverTotality
import Akua.Posture
import Akua.ManifestAgreement
import Akua.VendorCopy
import Akua.RustLock
import Akua.ArchiveNames
import Akua.UnpackRaces
import Akua.SecureConfig
import Akua.ConfigRaces
import Akua.ContractSchemas
import Akua.GitUrls
import Akua.KclLiterals
import Akua.Docstrings
import Akua.PackageStubs
import Akua.ModuleBinding
import Akua.ValuesSchema
import Akua.SchemaDefaults
import Akua.SchemaNames
import Akua.CrdSchemas
import Akua.CrdNames
import Akua.RemoveVerb
import Akua.SignatureCoding
import Akua.JsonText
import Akua.KeyOrder
import Akua.HostAuth
import Akua.SnapshotConfinement
import Akua.KustomizeTree
import Akua.BearerChallenge
import Akua.UrlCache
import Akua.HelmVersions
import Akua.Durations
import Akua.MemoryFs
import Akua.ReachableDefinitions
import Akua.ManifestStrings
import Akua.ToonOutput
import Akua.CommandInputs
import Akua.PluginPaths
import Akua.PathExpansion
import Akua.Decorators
import Akua.StubExtraction
import Akua.SnapshotPaths
import Akua.WorkspaceLookup
import Akua.DevicePolling
import Akua.InputSchema
import Akua.ManifestRoundTrip
import Akua.FailedRemovals
import Akua.LockVerb
import Akua.PublishedForks
import Akua.Lib.Der
import Akua.EncryptedKeys
import Akua.Signing
import Akua.Publish
import Akua.Registry
import Akua.PublishedPackages
import Akua.SignedPackages
