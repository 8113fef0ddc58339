import Elbencho.Args.BlockSizeText
import Elbencho.Args.PathDependent
import Elbencho.Library.PropertyTree

/-!
# The settings of a distributed run

The master sends its settings to the services before a run: `getAsPropertyTreeForService` writes
them into a property tree, and `setFromPropertyTreeForService` of the service reads them.  Both
functions go through more than a hundred keys one by one.

* `ArgKey` are the keys, with their names and the types of their values.
* `TransferredArgs` are the members that are to be the same on all hosts.  The rank offset, the
  tree file and the GPU of a service are set for each service.
* **`settings_arrive_iff`** says when all settings arrive: when the service has the master's
  checksum algorithm already, because this setting is written and never read, and when no block
  size is `2 ^ 63` or more (`BlockSizeMix.parse_toString_iff`).
-/

namespace Elbencho

open PropertyTree

/-! ## Keys -/

/-- The keys `ARG_…_LONG`, in the order in which they are written. -/
inductive ArgKey where
  | block | blockvariance | blockvariancealgo | benchlabel | benchmode | benchpaths | createdirs
  | createfiles | cufile | cufiledriveropen | cuhostbufreg | deletedirs | deletefiles
  | dirsharing | directio | dropcachesphase | fadvise | fileoffset | filesharesize | filesize
  | flock | gdsbufreg | hdfs | ignore0usecerr | ignoredelerr | infiniteioloop | integritycheck
  | iodepth | limitread | limitwrite | madvise | mmap | netbench | netbenchserversstr
  | numdatasetthreads | numdirs | numfiles | numnetbenchservers | numthreads | nofdsharing
  | nodirectiocheck | opsloglocking | opslogpath | preallocfile | norandomalign | randomamount
  | randomoffsets | randseekalgo | read | readinline | recvbufsize | respsize | reverseseqoffsets
  | rwmixpercent | rwmixthreads | rwmixthreadspct | s3accesskey | s3accesssecret | s3aclget
  | s3aclgrantee | s3aclgranteetype | s3aclgrants | s3aclput | s3aclputinline | s3aclverify
  | s3bucketaclget | s3bucketaclput | s3buckettag | s3buckettagverify | s3bucketver
  | s3bucketververify | s3checksumAlgo | s3clientsingleton | s3credfile | s3credlist
  | s3endpoints | s3fastget | s3ignoreerrors | s3listobj | s3listobjparallel | s3listobjverify
  | s3maxconns | s3mpusharing | s3mpusharingcompl | s3mpusizevar | s3mpusplitsize | s3multidelete
  | s3multiIgnore404 | s3nocompress | s3nompucompletion | s3objectPrefix | s3objlockcfg
  | s3objlockcfgverify | s3objtag | s3objtagverify | s3randobj | s3region | s3sessionToken
  | s3signpayload | s3sse | s3sseckey | s3ssekmskey | s3statdirs | s3troughputtarget
  | s3virtaddressing | sendbufsize | spdkconfjson | statfiles | statfilesinline | stridedaccess
  | syncphase | throughputbase10 | truncate | trunctosize | treerandomize | treeroundrobin
  | treeroundup | verifydirect | rankoffset | treefile | gpuids
  deriving DecidableEq

/-- The types of the values. -/
inductive ArgType where
  | string | bool | uint64 | uint32 | uint16 | int32

def ArgType.Val : ArgType → Type
  | string => String
  | bool => Bool
  | uint64 => UInt64
  | uint32 => UInt32
  | uint16 => UInt16
  | int32 => Int32

instance : (type : ArgType) → Translator type.Val
  | .string => inferInstanceAs (Translator String)
  | .bool => inferInstanceAs (Translator Bool)
  | .uint64 => inferInstanceAs (Translator UInt64)
  | .uint32 => inferInstanceAs (Translator UInt32)
  | .uint16 => inferInstanceAs (Translator UInt16)
  | .int32 => inferInstanceAs (Translator Int32)

namespace ArgKey

/-- The type that is read from a key. -/
def type : ArgKey → ArgType
  | .block | .blockvariancealgo | .benchlabel | .benchpaths | .netbenchserversstr | .opslogpath
  | .randseekalgo | .s3accesskey | .s3accesssecret | .s3aclgrantee | .s3aclgranteetype
  | .s3aclgrants | .s3checksumAlgo | .s3credfile | .s3credlist | .s3endpoints | .s3objectPrefix
  | .s3region | .s3sessionToken | .s3sseckey | .s3ssekmskey | .spdkconfjson | .treefile | .gpuids
    => .string
  | .fileoffset | .filesharesize | .filesize | .integritycheck | .iodepth | .limitread
  | .limitwrite | .numdatasetthreads | .numdirs | .numfiles | .numthreads | .randomamount
  | .respsize | .rwmixthreads | .s3listobj | .s3mpusizevar | .s3mpusplitsize | .s3multidelete
  | .treeroundup | .rankoffset => .uint64
  | .blockvariance | .fadvise | .madvise | .numnetbenchservers | .rwmixpercent | .rwmixthreadspct
  | .s3maxconns | .s3troughputtarget => .uint32
  | .benchmode | .flock | .s3signpayload => .uint16
  | .recvbufsize | .sendbufsize => .int32
  | _ => .bool

/-- The name of a key. -/
def name : ArgKey → String
  | block => "block"
  | blockvariance => "blockvarpct"
  | blockvariancealgo => "blockvaralgo"
  | benchlabel => "label"
  | benchmode => "benchmode"
  | benchpaths => "path"
  | createdirs => "mkdirs"
  | createfiles => "write"
  | cufile => "cufile"
  | cufiledriveropen => "cufiledriveropen"
  | cuhostbufreg => "cuhostbufreg"
  | deletedirs => "deldirs"
  | deletefiles => "delfiles"
  | dirsharing => "dirsharing"
  | directio => "direct"
  | dropcachesphase => "dropcache"
  | fadvise => "fadv"
  | fileoffset => "offset"
  | filesharesize => "sharesize"
  | filesize => "size"
  | flock => "flock"
  | gdsbufreg => "gdsbufreg"
  | hdfs => "hdfs"
  | ignore0usecerr => "no0usecerr"
  | ignoredelerr => "nodelerr"
  | infiniteioloop => "infloop"
  | integritycheck => "verify"
  | iodepth => "iodepth"
  | limitread => "limitread"
  | limitwrite => "limitwrite"
  | madvise => "madv"
  | mmap => "mmap"
  | netbench => "netbench"
  | netbenchserversstr => "netbenchservers"
  | numdatasetthreads => "datasetthreads"
  | numdirs => "dirs"
  | numfiles => "files"
  | numnetbenchservers => "numservers"
  | numthreads => "threads"
  | nofdsharing => "nofdsharing"
  | nodirectiocheck => "nodiocheck"
  | opsloglocking => "opsloglock"
  | opslogpath => "opslog"
  | preallocfile => "preallocfile"
  | norandomalign => "norandalign"
  | randomamount => "randamount"
  | randomoffsets => "rand"
  | randseekalgo => "randalgo"
  | read => "read"
  | readinline => "readinline"
  | recvbufsize => "recvbuf"
  | respsize => "respsize"
  | reverseseqoffsets => "backward"
  | rwmixpercent => "rwmixpct"
  | rwmixthreads => "rwmixthr"
  | rwmixthreadspct => "rwmixthrpct"
  | s3accesskey => "s3key"
  | s3accesssecret => "s3secret"
  | s3aclget => "s3aclget"
  | s3aclgrantee => "s3aclgrantee"
  | s3aclgranteetype => "s3aclgtype"
  | s3aclgrants => "s3aclgrants"
  | s3aclput => "s3aclput"
  | s3aclputinline => "s3aclputinl"
  | s3aclverify => "s3aclverify"
  | s3bucketaclget => "s3baclget"
  | s3bucketaclput => "s3baclput"
  | s3buckettag => "s3btag"
  | s3buckettagverify => "s3btagverify"
  | s3bucketver => "s3bversion"
  | s3bucketververify => "s3bversionverify"
  | s3checksumAlgo => "s3chksumalgo"
  | s3clientsingleton => "s3single"
  | s3credfile => "s3credfile"
  | s3credlist => "s3credlist"
  | s3endpoints => "s3endpoints"
  | s3fastget => "s3fastget"
  | s3ignoreerrors => "s3ignoreerrors"
  | s3listobj => "s3listobj"
  | s3listobjparallel => "s3listobjpar"
  | s3listobjverify => "s3listverify"
  | s3maxconns => "s3maxconns"
  | s3mpusharing => "s3mpusharing"
  | s3mpusharingcompl => "s3mpucomplphase"
  | s3mpusizevar => "s3mpusizevar"
  | s3mpusplitsize => "s3mpusplit"
  | s3multidelete => "s3multidel"
  | s3multiIgnore404 => "s3multiignore404"
  | s3nocompress => "s3nocompress"
  | s3nompucompletion => "s3nompucompl"
  | s3objectPrefix => "s3objprefix"
  | s3objlockcfg => "s3olockcfg"
  | s3objlockcfgverify => "s3olockcfgverify"
  | s3objtag => "s3otag"
  | s3objtagverify => "s3otagverify"
  | s3randobj => "s3randobj"
  | s3region => "s3region"
  | s3sessionToken => "s3sessiontoken"
  | s3signpayload => "s3sign"
  | s3sse => "s3sse"
  | s3sseckey => "s3sseckey"
  | s3ssekmskey => "s3ssekmskey"
  | s3statdirs => "s3statdirs"
  | s3troughputtarget => "s3targetgbps"
  | s3virtaddressing => "s3virtaddr"
  | sendbufsize => "sendbuf"
  | spdkconfjson => "spdkconf"
  | statfiles => "stat"
  | statfilesinline => "statinline"
  | stridedaccess => "strided"
  | syncphase => "sync"
  | throughputbase10 => "base10"
  | truncate => "trunc"
  | trunctosize => "trunctosize"
  | treerandomize => "treerand"
  | treeroundrobin => "treeroundrob"
  | treeroundup => "treeroundup"
  | verifydirect => "verifydirect"
  | rankoffset => "rankoffset"
  | treefile => "treefile"
  | gpuids => "gpuids"

/-- The keys in the order in which they are written. -/
def written : List ArgKey :=
  [.block, .blockvariance, .blockvariancealgo, .benchlabel, .benchmode, .benchpaths, .createdirs,
    .createfiles, .cufile, .cufiledriveropen, .cuhostbufreg, .deletedirs, .deletefiles,
    .dirsharing, .directio, .dropcachesphase, .fadvise, .fileoffset, .filesharesize, .filesize,
    .flock, .gdsbufreg, .hdfs, .ignore0usecerr, .ignoredelerr, .infiniteioloop, .integritycheck,
    .iodepth, .limitread, .limitwrite, .madvise, .mmap, .netbench, .netbenchserversstr,
    .numdatasetthreads, .numdirs, .numfiles, .numnetbenchservers, .numthreads, .nofdsharing,
    .nodirectiocheck, .opsloglocking, .opslogpath, .preallocfile, .norandomalign, .randomamount,
    .randomoffsets, .randseekalgo, .read, .readinline, .recvbufsize, .respsize,
    .reverseseqoffsets, .rwmixpercent, .rwmixthreads, .rwmixthreadspct, .s3accesskey,
    .s3accesssecret, .s3aclget, .s3aclgrantee, .s3aclgranteetype, .s3aclgrants, .s3aclput,
    .s3aclputinline, .s3aclverify, .s3bucketaclget, .s3bucketaclput, .s3buckettag,
    .s3buckettagverify, .s3bucketver, .s3bucketververify, .s3checksumAlgo, .s3clientsingleton,
    .s3credfile, .s3credlist, .s3endpoints, .s3fastget, .s3ignoreerrors, .s3listobj,
    .s3listobjparallel, .s3listobjverify, .s3maxconns, .s3mpusharing, .s3mpusharingcompl,
    .s3mpusizevar, .s3mpusplitsize, .s3multidelete, .s3multiIgnore404, .s3nocompress,
    .s3nompucompletion, .s3objectPrefix, .s3objlockcfg, .s3objlockcfgverify, .s3objtag,
    .s3objtagverify, .s3randobj, .s3region, .s3sessionToken, .s3signpayload, .s3sse, .s3sseckey,
    .s3ssekmskey, .s3statdirs, .s3troughputtarget, .s3virtaddressing, .sendbufsize,
    .spdkconfjson, .statfiles, .statfilesinline, .stridedaccess, .syncphase, .throughputbase10,
    .truncate, .trunctosize, .treerandomize, .treeroundrobin, .treeroundup, .verifydirect,
    .rankoffset, .treefile, .gpuids]

theorem mem_written (k : ArgKey) : k ∈ written := by
  cases k <;> decide

/-- No name is used twice. -/
theorem nodup_name : (written.map name).Nodup := by
  decide +kernel

end ArgKey

/-! ## Members -/

/-- The members that are to be the same on all hosts. -/
structure TransferredArgs where
  blockSizeMix : BlockSizeMix
  blockVariancePercent : UInt32
  blockVarianceAlgo : String
  benchLabel : String
  benchMode : BenchMode
  benchPathStr : String
  runCreateDirsPhase : Bool
  runCreateFilesPhase : Bool
  useCuFile : Bool
  useCuFileDriverOpen : Bool
  useCuHostBufReg : Bool
  runDeleteDirsPhase : Bool
  runDeleteFilesPhase : Bool
  doDirSharing : Bool
  useDirectIo : Bool
  runDropCachesPhase : Bool
  fadviseFlags : UInt32
  fileOffset : UInt64
  fileShareSize : UInt64
  fileSize : UInt64
  flockType : UInt16
  useGDSBufReg : Bool
  useHDFS : Bool
  ignore0USecErrors : Bool
  ignoreDelErrors : Bool
  doInfiniteIoLoop : Bool
  integrityCheckSalt : UInt64
  ioDepth : UInt64
  limitReadBps : UInt64
  limitWriteBps : UInt64
  madviseFlags : UInt32
  useMmap : Bool
  useNetBench : Bool
  numDataSetThreads : UInt64
  numDirs : UInt64
  numFiles : UInt64
  numNetBenchServers : UInt32
  numThreads : UInt64
  useNoFDSharing : Bool
  noDirectIoCheck : Bool
  useOpsLogLocking : Bool
  opsLogPath : String
  doPreallocFile : Bool
  useRandomUnaligned : Bool
  randomAmount : UInt64
  useRandomOffsets : Bool
  randOffsetAlgo : String
  runReadPhase : Bool
  doReadInline : Bool
  sockRecvBufSize : Int32
  netBenchRespSize : UInt64
  doReverseSeqOffsets : Bool
  rwMixReadPercent : UInt32
  numRWMixReadThreads : UInt64
  rwMixThreadsReadPercent : UInt32
  s3AccessKey : String
  s3AccessSecret : String
  runS3AclGet : Bool
  s3AclGrantee : String
  s3AclGranteeType : String
  s3AclGranteePermissions : String
  runS3AclPut : Bool
  doS3AclPutInline : Bool
  doS3AclVerify : Bool
  runS3BucketAclGet : Bool
  runS3BucketAclPut : Bool
  doS3BucketTag : Bool
  doS3BucketTagVerify : Bool
  doS3BucketVersioning : Bool
  doS3BucketVersioningVerify : Bool
  s3ChecksumAlgoStr : String
  useS3ClientSingleton : Bool
  s3CredentialsFile : String
  s3CredentialsList : String
  s3EndpointsStr : String
  useS3FastRead : Bool
  ignoreS3Errors : Bool
  runS3ListObjNum : UInt64
  runS3ListObjParallel : Bool
  doS3ListObjVerify : Bool
  s3MaxConnections : UInt32
  useS3MPUSharing : Bool
  runS3MPUSharingCompletionPhase : Bool
  s3MpuSizeVariance : UInt64
  s3MpuSplitSize : UInt64
  runS3MultiDelObjNum : UInt64
  s3IgnoreMultipartUpload404 : Bool
  s3NoCompression : Bool
  s3NoMpuCompletion : Bool
  s3ObjectPrefix : String
  doS3ObjectLockCfg : Bool
  doS3ObjectLockCfgVerify : Bool
  doS3ObjectTag : Bool
  doS3ObjectTagVerify : Bool
  useS3RandObjSelect : Bool
  s3Region : String
  s3SessionToken : String
  s3SignPolicy : UInt16
  useS3SSE : Bool
  s3SSECKey : String
  s3SSEKMSKey : String
  runS3StatDirs : Bool
  s3ThroughputTargetGbps : UInt32
  useS3VirtualAddressing : Bool
  sockSendBufSize : Int32
  spdkConfJSON : String
  runStatFilesPhase : Bool
  doStatInline : Bool
  useStridedAccess : Bool
  runSyncPhase : Bool
  showThroughputBase10 : Bool
  doTruncate : Bool
  doTruncToSize : Bool
  useCustomTreeRandomize : Bool
  useCustomTreeRoundRobin : Bool
  treeRoundUpSize : UInt64
  doDirectVerify : Bool

/-- The members that take part in the transfer. -/
structure ServiceArgs extends TransferredArgs where
  blockSizeOrigStr : String
  blockSize : ℕ
  serversStr : String
  netBenchServersStr : String
  noSharedServicePath : Bool
  rankOffset : UInt64
  treeFilePath : String
  gpuIDsStr : String
  gpuIDsVec : List Int32
  assignGpuPerService : Bool

/-- The number of a benchmark mode. -/
def BenchMode.code (mode : BenchMode) : UInt16 := UInt16.ofNat mode.ctorIdx

/-- The benchmark mode of a number. -/
def BenchMode.ofCode (code : UInt16) : BenchMode :=
  match code.toNat with
  | 1 => .posix
  | 2 => .s3
  | 3 => .hdfs
  | 4 => .netbench
  | 5 => .spdk
  | _ => .undefined

theorem BenchMode.ofCode_code (mode : BenchMode) : BenchMode.ofCode mode.code = mode := by
  cases mode <;> rfl

namespace ServiceArgs

/-! ## What the master writes -/

/-- `remoteRankOffset`: the services have consecutive ranks if they share their paths. -/
def remoteRankOffset (a : ServiceArgs) (serviceRank : UInt64) : UInt64 :=
  if a.noSharedServicePath then a.rankOffset else a.rankOffset + serviceRank * a.numThreads

/-- The GPUs of a service. -/
def remoteGpuIDs (a : ServiceArgs) (serviceRank : UInt64) : String :=
  if !a.assignGpuPerService || a.gpuIDsVec.isEmpty then a.gpuIDsStr
  else Translator.putValue (a.gpuIDsVec.getD (serviceRank.toNat % a.gpuIDsVec.length) 0)

/-- The value that is written for a key. -/
def value (a : ServiceArgs) (serviceRank : UInt64) : (k : ArgKey) → k.type.Val
  | .block => a.blockSizeMix.toString
  | .blockvariance => a.blockVariancePercent
  | .blockvariancealgo => a.blockVarianceAlgo
  | .benchlabel => a.benchLabel
  | .benchmode => a.benchMode.code
  | .benchpaths => a.benchPathStr
  | .createdirs => a.runCreateDirsPhase
  | .createfiles => a.runCreateFilesPhase
  | .cufile => a.useCuFile
  | .cufiledriveropen => a.useCuFileDriverOpen
  | .cuhostbufreg => a.useCuHostBufReg
  | .deletedirs => a.runDeleteDirsPhase
  | .deletefiles => a.runDeleteFilesPhase
  | .dirsharing => a.doDirSharing
  | .directio => a.useDirectIo
  | .dropcachesphase => a.runDropCachesPhase
  | .fadvise => a.fadviseFlags
  | .fileoffset => a.fileOffset
  | .filesharesize => a.fileShareSize
  | .filesize => a.fileSize
  | .flock => a.flockType
  | .gdsbufreg => a.useGDSBufReg
  | .hdfs => a.useHDFS
  | .ignore0usecerr => a.ignore0USecErrors
  | .ignoredelerr => a.ignoreDelErrors
  | .infiniteioloop => a.doInfiniteIoLoop
  | .integritycheck => a.integrityCheckSalt
  | .iodepth => a.ioDepth
  | .limitread => a.limitReadBps
  | .limitwrite => a.limitWriteBps
  | .madvise => a.madviseFlags
  | .mmap => a.useMmap
  | .netbench => a.useNetBench
  | .netbenchserversstr => a.serversStr
  | .numdatasetthreads => a.numDataSetThreads
  | .numdirs => a.numDirs
  | .numfiles => a.numFiles
  | .numnetbenchservers => a.numNetBenchServers
  | .numthreads => a.numThreads
  | .nofdsharing => a.useNoFDSharing
  | .nodirectiocheck => a.noDirectIoCheck
  | .opsloglocking => a.useOpsLogLocking
  | .opslogpath => a.opsLogPath
  | .preallocfile => a.doPreallocFile
  | .norandomalign => a.useRandomUnaligned
  | .randomamount => a.randomAmount
  | .randomoffsets => a.useRandomOffsets
  | .randseekalgo => a.randOffsetAlgo
  | .read => a.runReadPhase
  | .readinline => a.doReadInline
  | .recvbufsize => a.sockRecvBufSize
  | .respsize => a.netBenchRespSize
  | .reverseseqoffsets => a.doReverseSeqOffsets
  | .rwmixpercent => a.rwMixReadPercent
  | .rwmixthreads => a.numRWMixReadThreads
  | .rwmixthreadspct => a.rwMixThreadsReadPercent
  | .s3accesskey => a.s3AccessKey
  | .s3accesssecret => a.s3AccessSecret
  | .s3aclget => a.runS3AclGet
  | .s3aclgrantee => a.s3AclGrantee
  | .s3aclgranteetype => a.s3AclGranteeType
  | .s3aclgrants => a.s3AclGranteePermissions
  | .s3aclput => a.runS3AclPut
  | .s3aclputinline => a.doS3AclPutInline
  | .s3aclverify => a.doS3AclVerify
  | .s3bucketaclget => a.runS3BucketAclGet
  | .s3bucketaclput => a.runS3BucketAclPut
  | .s3buckettag => a.doS3BucketTag
  | .s3buckettagverify => a.doS3BucketTagVerify
  | .s3bucketver => a.doS3BucketVersioning
  | .s3bucketververify => a.doS3BucketVersioningVerify
  | .s3checksumAlgo => a.s3ChecksumAlgoStr
  | .s3clientsingleton => a.useS3ClientSingleton
  | .s3credfile => a.s3CredentialsFile
  | .s3credlist => a.s3CredentialsList
  | .s3endpoints => a.s3EndpointsStr
  | .s3fastget => a.useS3FastRead
  | .s3ignoreerrors => a.ignoreS3Errors
  | .s3listobj => a.runS3ListObjNum
  | .s3listobjparallel => a.runS3ListObjParallel
  | .s3listobjverify => a.doS3ListObjVerify
  | .s3maxconns => a.s3MaxConnections
  | .s3mpusharing => a.useS3MPUSharing
  | .s3mpusharingcompl => a.runS3MPUSharingCompletionPhase
  | .s3mpusizevar => a.s3MpuSizeVariance
  | .s3mpusplitsize => a.s3MpuSplitSize
  | .s3multidelete => a.runS3MultiDelObjNum
  | .s3multiIgnore404 => a.s3IgnoreMultipartUpload404
  | .s3nocompress => a.s3NoCompression
  | .s3nompucompletion => a.s3NoMpuCompletion
  | .s3objectPrefix => a.s3ObjectPrefix
  | .s3objlockcfg => a.doS3ObjectLockCfg
  | .s3objlockcfgverify => a.doS3ObjectLockCfgVerify
  | .s3objtag => a.doS3ObjectTag
  | .s3objtagverify => a.doS3ObjectTagVerify
  | .s3randobj => a.useS3RandObjSelect
  | .s3region => a.s3Region
  | .s3sessionToken => a.s3SessionToken
  | .s3signpayload => a.s3SignPolicy
  | .s3sse => a.useS3SSE
  | .s3sseckey => a.s3SSECKey
  | .s3ssekmskey => a.s3SSEKMSKey
  | .s3statdirs => a.runS3StatDirs
  | .s3troughputtarget => a.s3ThroughputTargetGbps
  | .s3virtaddressing => a.useS3VirtualAddressing
  | .sendbufsize => a.sockSendBufSize
  | .spdkconfjson => a.spdkConfJSON
  | .statfiles => a.runStatFilesPhase
  | .statfilesinline => a.doStatInline
  | .stridedaccess => a.useStridedAccess
  | .syncphase => a.runSyncPhase
  | .throughputbase10 => a.showThroughputBase10
  | .truncate => a.doTruncate
  | .trunctosize => a.doTruncToSize
  | .treerandomize => a.useCustomTreeRandomize
  | .treeroundrobin => a.useCustomTreeRoundRobin
  | .treeroundup => a.treeRoundUpSize
  | .verifydirect => a.doDirectVerify
  | .rankoffset => a.remoteRankOffset serviceRank
  | .treefile => if a.treeFilePath.isEmpty then "" else "treefile.txt"
  | .gpuids => a.remoteGpuIDs serviceRank

def getAsPropertyTreeForService (a : ServiceArgs) (serviceRank : UInt64) : PropertyTree :=
  PropertyTree.empty.putTable ArgKey.name (a.value serviceRank) ArgKey.written

/-! ## What the service reads -/

/-- Why a service does not accept its settings. -/
inductive Error where
  | tree (e : PropertyTree.Error)
  | threw (msg : String)

/-- `tree.get` for a key. -/
def getArg (tree : PropertyTree) (k : ArgKey) : Except Error k.type.Val :=
  Except.mapError Error.tree (tree.get k.name)

/-- `setFromPropertyTreeForService` up to the point at which the members have been read.  What
follows opens the tree file and the benchmark paths and checks them. -/
def setFromPropertyTreeForService (a : ServiceArgs) (tree : PropertyTree) :
    Except Error ServiceArgs := do
  let benchLabel ← getArg tree .benchlabel
  let benchMode ← getArg tree .benchmode
  let benchPathStr ← getArg tree .benchpaths
  let blockSizeOrigStr ← getArg tree .block
  let blockVarianceAlgo ← getArg tree .blockvariancealgo
  let blockVariancePercent ← getArg tree .blockvariance
  let doDirectVerify ← getArg tree .verifydirect
  let doDirSharing ← getArg tree .dirsharing
  let doInfiniteIoLoop ← getArg tree .infiniteioloop
  let doPreallocFile ← getArg tree .preallocfile
  let doReadInline ← getArg tree .readinline
  let doReverseSeqOffsets ← getArg tree .reverseseqoffsets
  let doS3AclPutInline ← getArg tree .s3aclputinline
  let doS3AclVerify ← getArg tree .s3aclverify
  let doS3ListObjVerify ← getArg tree .s3listobjverify
  let doStatInline ← getArg tree .statfilesinline
  let doS3BucketTag ← getArg tree .s3buckettag
  let doS3BucketTagVerify ← getArg tree .s3buckettagverify
  let doS3BucketVersioning ← getArg tree .s3bucketver
  let doS3BucketVersioningVerify ← getArg tree .s3bucketververify
  let doS3ObjectTag ← getArg tree .s3objtag
  let doS3ObjectTagVerify ← getArg tree .s3objtagverify
  let doS3ObjectLockCfg ← getArg tree .s3objlockcfg
  let doS3ObjectLockCfgVerify ← getArg tree .s3objlockcfgverify
  let doTruncate ← getArg tree .truncate
  let doTruncToSize ← getArg tree .trunctosize
  let fadviseFlags ← getArg tree .fadvise
  let fileOffset ← getArg tree .fileoffset
  let fileShareSize ← getArg tree .filesharesize
  let fileSize ← getArg tree .filesize
  let flockType ← getArg tree .flock
  let gpuIDsStr ← getArg tree .gpuids
  let ignore0USecErrors ← getArg tree .ignore0usecerr
  let ignoreDelErrors ← getArg tree .ignoredelerr
  let ignoreS3Errors ← getArg tree .s3ignoreerrors
  let integrityCheckSalt ← getArg tree .integritycheck
  let ioDepth ← getArg tree .iodepth
  let limitReadBps ← getArg tree .limitread
  let limitWriteBps ← getArg tree .limitwrite
  let madviseFlags ← getArg tree .madvise
  let netBenchRespSize ← getArg tree .respsize
  let netBenchServersStr ← getArg tree .netbenchserversstr
  let noDirectIoCheck ← getArg tree .nodirectiocheck
  let numDirs ← getArg tree .numdirs
  let numFiles ← getArg tree .numfiles
  let numNetBenchServers ← getArg tree .numnetbenchservers
  let numRWMixReadThreads ← getArg tree .rwmixthreads
  let numThreads ← getArg tree .numthreads
  let opsLogPath ← getArg tree .opslogpath
  let randOffsetAlgo ← getArg tree .randseekalgo
  let randomAmount ← getArg tree .randomamount
  let runCreateDirsPhase ← getArg tree .createdirs
  let runCreateFilesPhase ← getArg tree .createfiles
  let runDeleteDirsPhase ← getArg tree .deletedirs
  let runDeleteFilesPhase ← getArg tree .deletefiles
  let runDropCachesPhase ← getArg tree .dropcachesphase
  let runReadPhase ← getArg tree .read
  let runS3AclGet ← getArg tree .s3aclget
  let runS3AclPut ← getArg tree .s3aclput
  let runS3BucketAclGet ← getArg tree .s3bucketaclget
  let runS3BucketAclPut ← getArg tree .s3bucketaclput
  let runS3ListObjNum ← getArg tree .s3listobj
  let runS3ListObjParallel ← getArg tree .s3listobjparallel
  let runS3MPUSharingCompletionPhase ← getArg tree .s3mpusharingcompl
  let runS3MultiDelObjNum ← getArg tree .s3multidelete
  let s3IgnoreMultipartUpload404 ← getArg tree .s3multiIgnore404
  let runS3StatDirs ← getArg tree .s3statdirs
  let runStatFilesPhase ← getArg tree .statfiles
  let runSyncPhase ← getArg tree .syncphase
  let rwMixReadPercent ← getArg tree .rwmixpercent
  let rwMixThreadsReadPercent ← getArg tree .rwmixthreadspct
  let s3AccessKey ← getArg tree .s3accesskey
  let s3AccessSecret ← getArg tree .s3accesssecret
  let s3AclGrantee ← getArg tree .s3aclgrantee
  let s3AclGranteePermissions ← getArg tree .s3aclgrants
  let s3AclGranteeType ← getArg tree .s3aclgranteetype
  let s3CredentialsFile ← getArg tree .s3credfile
  let s3CredentialsList ← getArg tree .s3credlist
  let s3EndpointsStr ← getArg tree .s3endpoints
  let s3MaxConnections ← getArg tree .s3maxconns
  let s3MpuSizeVariance ← getArg tree .s3mpusizevar
  let s3MpuSplitSize ← getArg tree .s3mpusplitsize
  let s3NoCompression ← getArg tree .s3nocompress
  let s3NoMpuCompletion ← getArg tree .s3nompucompletion
  let s3ObjectPrefix ← getArg tree .s3objectPrefix
  let s3Region ← getArg tree .s3region
  let s3SessionToken ← getArg tree .s3sessionToken
  let s3SignPolicy ← getArg tree .s3signpayload
  let s3SSECKey ← getArg tree .s3sseckey
  let s3SSEKMSKey ← getArg tree .s3ssekmskey
  let s3ThroughputTargetGbps ← getArg tree .s3troughputtarget
  let showThroughputBase10 ← getArg tree .throughputbase10
  let sockRecvBufSize ← getArg tree .recvbufsize
  let sockSendBufSize ← getArg tree .sendbufsize
  let spdkConfJSON ← getArg tree .spdkconfjson
  let treeRoundUpSize ← getArg tree .treeroundup
  let useCuFile ← getArg tree .cufile
  let useCuFileDriverOpen ← getArg tree .cufiledriveropen
  let useCuHostBufReg ← getArg tree .cuhostbufreg
  let useCustomTreeRandomize ← getArg tree .treerandomize
  let useCustomTreeRoundRobin ← getArg tree .treeroundrobin
  let useDirectIo ← getArg tree .directio
  let useGDSBufReg ← getArg tree .gdsbufreg
  let useHDFS ← getArg tree .hdfs
  let useMmap ← getArg tree .mmap
  let useNetBench ← getArg tree .netbench
  let useNoFDSharing ← getArg tree .nofdsharing
  let useOpsLogLocking ← getArg tree .opsloglocking
  let useRandomUnaligned ← getArg tree .norandomalign
  let useRandomOffsets ← getArg tree .randomoffsets
  let useS3ClientSingleton ← getArg tree .s3clientsingleton
  let useS3FastRead ← getArg tree .s3fastget
  let useS3MPUSharing ← getArg tree .s3mpusharing
  let useS3RandObjSelect ← getArg tree .s3randobj
  let useS3SSE ← getArg tree .s3sse
  let useS3VirtualAddressing ← getArg tree .s3virtaddressing
  let useStridedAccess ← getArg tree .stridedaccess
  let blockSizeMix ← Except.mapError Error.threw (BlockSizeMix.parse blockSizeOrigStr)
  let rankOffset ← getArg tree .rankoffset
  let numDataSetThreads ← getArg tree .numdatasetthreads
  let treeFilePath ← getArg tree .treefile
  .ok { a with
    blockSizeMix := blockSizeMix
    blockSize := blockSizeMix.getMaxSize
    benchLabel := benchLabel
    benchMode := BenchMode.ofCode benchMode
    benchPathStr := benchPathStr
    blockSizeOrigStr := blockSizeOrigStr
    blockVarianceAlgo := blockVarianceAlgo
    blockVariancePercent := blockVariancePercent
    doDirectVerify := doDirectVerify
    doDirSharing := doDirSharing
    doInfiniteIoLoop := doInfiniteIoLoop
    doPreallocFile := doPreallocFile
    doReadInline := doReadInline
    doReverseSeqOffsets := doReverseSeqOffsets
    doS3AclPutInline := doS3AclPutInline
    doS3AclVerify := doS3AclVerify
    doS3ListObjVerify := doS3ListObjVerify
    doStatInline := doStatInline
    doS3BucketTag := doS3BucketTag
    doS3BucketTagVerify := doS3BucketTagVerify
    doS3BucketVersioning := doS3BucketVersioning
    doS3BucketVersioningVerify := doS3BucketVersioningVerify
    doS3ObjectTag := doS3ObjectTag
    doS3ObjectTagVerify := doS3ObjectTagVerify
    doS3ObjectLockCfg := doS3ObjectLockCfg
    doS3ObjectLockCfgVerify := doS3ObjectLockCfgVerify
    doTruncate := doTruncate
    doTruncToSize := doTruncToSize
    fadviseFlags := fadviseFlags
    fileOffset := fileOffset
    fileShareSize := fileShareSize
    fileSize := fileSize
    flockType := flockType
    gpuIDsStr := gpuIDsStr
    ignore0USecErrors := ignore0USecErrors
    ignoreDelErrors := ignoreDelErrors
    ignoreS3Errors := ignoreS3Errors
    integrityCheckSalt := integrityCheckSalt
    ioDepth := ioDepth
    limitReadBps := limitReadBps
    limitWriteBps := limitWriteBps
    madviseFlags := madviseFlags
    netBenchRespSize := netBenchRespSize
    netBenchServersStr := netBenchServersStr
    noDirectIoCheck := noDirectIoCheck
    numDirs := numDirs
    numFiles := numFiles
    numNetBenchServers := numNetBenchServers
    numRWMixReadThreads := numRWMixReadThreads
    numThreads := numThreads
    opsLogPath := opsLogPath
    randOffsetAlgo := randOffsetAlgo
    randomAmount := randomAmount
    runCreateDirsPhase := runCreateDirsPhase
    runCreateFilesPhase := runCreateFilesPhase
    runDeleteDirsPhase := runDeleteDirsPhase
    runDeleteFilesPhase := runDeleteFilesPhase
    runDropCachesPhase := runDropCachesPhase
    runReadPhase := runReadPhase
    runS3AclGet := runS3AclGet
    runS3AclPut := runS3AclPut
    runS3BucketAclGet := runS3BucketAclGet
    runS3BucketAclPut := runS3BucketAclPut
    runS3ListObjNum := runS3ListObjNum
    runS3ListObjParallel := runS3ListObjParallel
    runS3MPUSharingCompletionPhase := runS3MPUSharingCompletionPhase
    runS3MultiDelObjNum := runS3MultiDelObjNum
    s3IgnoreMultipartUpload404 := s3IgnoreMultipartUpload404
    runS3StatDirs := runS3StatDirs
    runStatFilesPhase := runStatFilesPhase
    runSyncPhase := runSyncPhase
    rwMixReadPercent := rwMixReadPercent
    rwMixThreadsReadPercent := rwMixThreadsReadPercent
    s3AccessKey := s3AccessKey
    s3AccessSecret := s3AccessSecret
    s3AclGrantee := s3AclGrantee
    s3AclGranteePermissions := s3AclGranteePermissions
    s3AclGranteeType := s3AclGranteeType
    s3CredentialsFile := s3CredentialsFile
    s3CredentialsList := s3CredentialsList
    s3EndpointsStr := s3EndpointsStr
    s3MaxConnections := s3MaxConnections
    s3MpuSizeVariance := s3MpuSizeVariance
    s3MpuSplitSize := s3MpuSplitSize
    s3NoCompression := s3NoCompression
    s3NoMpuCompletion := s3NoMpuCompletion
    s3ObjectPrefix := s3ObjectPrefix
    s3Region := s3Region
    s3SessionToken := s3SessionToken
    s3SignPolicy := s3SignPolicy
    s3SSECKey := s3SSECKey
    s3SSEKMSKey := s3SSEKMSKey
    s3ThroughputTargetGbps := s3ThroughputTargetGbps
    showThroughputBase10 := showThroughputBase10
    sockRecvBufSize := sockRecvBufSize
    sockSendBufSize := sockSendBufSize
    spdkConfJSON := spdkConfJSON
    treeRoundUpSize := treeRoundUpSize
    useCuFile := useCuFile
    useCuFileDriverOpen := useCuFileDriverOpen
    useCuHostBufReg := useCuHostBufReg
    useCustomTreeRandomize := useCustomTreeRandomize
    useCustomTreeRoundRobin := useCustomTreeRoundRobin
    useDirectIo := useDirectIo
    useGDSBufReg := useGDSBufReg
    useHDFS := useHDFS
    useMmap := useMmap
    useNetBench := useNetBench
    useNoFDSharing := useNoFDSharing
    useOpsLogLocking := useOpsLogLocking
    useRandomUnaligned := useRandomUnaligned
    useRandomOffsets := useRandomOffsets
    useS3ClientSingleton := useS3ClientSingleton
    useS3FastRead := useS3FastRead
    useS3MPUSharing := useS3MPUSharing
    useS3RandObjSelect := useS3RandObjSelect
    useS3SSE := useS3SSE
    useS3VirtualAddressing := useS3VirtualAddressing
    useStridedAccess := useStridedAccess
    rankOffset := rankOffset
    numDataSetThreads := numDataSetThreads
    treeFilePath := treeFilePath }

/-! ## What arrives -/

/-- Each key is read with the value that was written for it. -/
theorem getArg_getAsPropertyTreeForService (m : ServiceArgs) (serviceRank : UInt64) (k : ArgKey) :
    getArg (m.getAsPropertyTreeForService serviceRank) k = .ok (m.value serviceRank k) := by
  rw [getArg, getAsPropertyTreeForService,
    get_putTable _ ArgKey.nodup_name (ArgKey.mem_written k)]
  rfl

/-- What a service has after it has read the settings of the master `m`, with the mix it
parsed. -/
def received (a m : ServiceArgs) (serviceRank : UInt64) (mix : BlockSizeMix) : ServiceArgs where
  toTransferredArgs := { m.toTransferredArgs with
    blockSizeMix := mix
    s3ChecksumAlgoStr := a.s3ChecksumAlgoStr }
  blockSizeOrigStr := m.blockSizeMix.toString
  blockSize := mix.getMaxSize
  serversStr := a.serversStr
  netBenchServersStr := m.serversStr
  noSharedServicePath := a.noSharedServicePath
  rankOffset := m.remoteRankOffset serviceRank
  treeFilePath := if m.treeFilePath.isEmpty then "" else "treefile.txt"
  gpuIDsStr := m.remoteGpuIDs serviceRank
  gpuIDsVec := a.gpuIDsVec
  assignGpuPerService := a.assignGpuPerService

/-- **Everything but the mix is read.** -/
theorem setFromPropertyTreeForService_eq (a m : ServiceArgs) (serviceRank : UInt64) :
    a.setFromPropertyTreeForService (m.getAsPropertyTreeForService serviceRank) =
      (Except.mapError Error.threw (BlockSizeMix.parse m.blockSizeMix.toString)).map
        (a.received m serviceRank) := by
  have hmode : BenchMode.ofCode (m.value serviceRank .benchmode) = m.benchMode :=
    m.benchMode.ofCode_code
  unfold setFromPropertyTreeForService
  simp only [getArg_getAsPropertyTreeForService, Checks.ok_bind, hmode]
  change _ = (Except.mapError Error.threw (BlockSizeMix.parse (m.value serviceRank .block))).map _
  cases BlockSizeMix.parse (m.value serviceRank .block) with
  | error msg => rfl
  | ok mix => rfl

/-- **When all settings of the master arrive at a service**, which has the settings `a` before. -/
theorem settings_arrive_iff (a m : ServiceArgs) (serviceRank : UInt64) :
    (∃ a', a.setFromPropertyTreeForService (m.getAsPropertyTreeForService serviceRank) = .ok a' ∧
      a'.toTransferredArgs = m.toTransferredArgs ∧ a'.netBenchServersStr = m.serversStr) ↔
    a.s3ChecksumAlgoStr = m.s3ChecksumAlgoStr ∧
      ∀ e ∈ m.blockSizeMix.sizesAndWeights, e.1 < 2 ^ 63 := by
  rw [setFromPropertyTreeForService_eq, ← BlockSizeMix.parse_toString_iff]
  constructor
  · rintro ⟨a', ha', hsame, -⟩
    cases hparse : BlockSizeMix.parse m.blockSizeMix.toString with
    | error msg =>
      rw [hparse] at ha'
      cases ha'
    | ok mix =>
      rw [hparse] at ha'
      cases ha'
      have hmix : mix = m.blockSizeMix := congrArg TransferredArgs.blockSizeMix hsame
      have hchecksum : (a.received m serviceRank mix).s3ChecksumAlgoStr = m.s3ChecksumAlgoStr :=
        congrArg TransferredArgs.s3ChecksumAlgoStr hsame
      exact ⟨hchecksum, congrArg Except.ok hmix⟩
  · rintro ⟨hchecksum, hparse⟩
    rw [hparse]
    refine ⟨_, rfl, ?_, rfl⟩
    change { m.toTransferredArgs with
      blockSizeMix := m.blockSizeMix
      s3ChecksumAlgoStr := a.s3ChecksumAlgoStr } = m.toTransferredArgs
    rw [hchecksum]

/-! ## A setting that does not arrive -/

/-- The values before the command line is read. -/
def defineDefaults : ServiceArgs where
  blockSizeMix := .single (1024 * 1024) (by decide) (by decide)
  blockVariancePercent := 100
  blockVarianceAlgo := "fast"
  benchLabel := ""
  benchMode := .undefined
  benchPathStr := ""
  runCreateDirsPhase := false
  runCreateFilesPhase := false
  useCuFile := false
  useCuFileDriverOpen := false
  useCuHostBufReg := false
  runDeleteDirsPhase := false
  runDeleteFilesPhase := false
  doDirSharing := false
  useDirectIo := false
  runDropCachesPhase := false
  fadviseFlags := 0
  fileOffset := 0
  fileShareSize := 0
  fileSize := 0
  flockType := 0
  useGDSBufReg := false
  useHDFS := false
  ignore0USecErrors := false
  ignoreDelErrors := false
  doInfiniteIoLoop := false
  integrityCheckSalt := 0
  ioDepth := 1
  limitReadBps := 0
  limitWriteBps := 0
  madviseFlags := 0
  useMmap := false
  useNetBench := false
  numDataSetThreads := 1
  numDirs := 1
  numFiles := 1
  numNetBenchServers := 0
  numThreads := 1
  useNoFDSharing := false
  noDirectIoCheck := false
  useOpsLogLocking := false
  opsLogPath := ""
  doPreallocFile := false
  useRandomUnaligned := false
  randomAmount := 0
  useRandomOffsets := false
  randOffsetAlgo := ""
  runReadPhase := false
  doReadInline := false
  sockRecvBufSize := 0
  netBenchRespSize := 1
  doReverseSeqOffsets := false
  rwMixReadPercent := 0
  numRWMixReadThreads := 0
  rwMixThreadsReadPercent := 0
  s3AccessKey := ""
  s3AccessSecret := ""
  runS3AclGet := false
  s3AclGrantee := ""
  s3AclGranteeType := ""
  s3AclGranteePermissions := ""
  runS3AclPut := false
  doS3AclPutInline := false
  doS3AclVerify := false
  runS3BucketAclGet := false
  runS3BucketAclPut := false
  doS3BucketTag := false
  doS3BucketTagVerify := false
  doS3BucketVersioning := false
  doS3BucketVersioningVerify := false
  s3ChecksumAlgoStr := ""
  useS3ClientSingleton := false
  s3CredentialsFile := ""
  s3CredentialsList := ""
  s3EndpointsStr := ""
  useS3FastRead := false
  ignoreS3Errors := false
  runS3ListObjNum := 0
  runS3ListObjParallel := false
  doS3ListObjVerify := false
  s3MaxConnections := 0
  useS3MPUSharing := false
  runS3MPUSharingCompletionPhase := false
  s3MpuSizeVariance := 0
  s3MpuSplitSize := 0
  runS3MultiDelObjNum := 0
  s3IgnoreMultipartUpload404 := false
  s3NoCompression := false
  s3NoMpuCompletion := false
  s3ObjectPrefix := ""
  doS3ObjectLockCfg := false
  doS3ObjectLockCfgVerify := false
  doS3ObjectTag := false
  doS3ObjectTagVerify := false
  useS3RandObjSelect := false
  s3Region := ""
  s3SessionToken := ""
  s3SignPolicy := 0
  useS3SSE := false
  s3SSECKey := ""
  s3SSEKMSKey := ""
  runS3StatDirs := false
  s3ThroughputTargetGbps := 100
  useS3VirtualAddressing := false
  sockSendBufSize := 0
  spdkConfJSON := ""
  runStatFilesPhase := false
  doStatInline := false
  useStridedAccess := false
  runSyncPhase := false
  showThroughputBase10 := false
  doTruncate := false
  doTruncToSize := false
  useCustomTreeRandomize := false
  useCustomTreeRoundRobin := false
  treeRoundUpSize := 0
  doDirectVerify := false
  blockSizeOrigStr := "1M"
  blockSize := 1024 * 1024
  serversStr := ""
  netBenchServersStr := ""
  noSharedServicePath := false
  rankOffset := 0
  treeFilePath := ""
  gpuIDsStr := ""
  gpuIDsVec := []
  assignGpuPerService := false

/-- A master that writes an object of one block with a checksum. -/
def checksumWriteArgs : ServiceArgs := { defineDefaults with
  benchMode := .s3
  benchPathStr := "bucket"
  runCreateFilesPhase := true
  fileSize := 1024 * 1024
  s3EndpointsStr := "http://localhost:9000"
  s3ChecksumAlgoStr := "CRC32" }

/-- The service reads the settings and writes without a checksum. -/
theorem checksumAlgo_lost :
    ∃ a', defineDefaults.setFromPropertyTreeForService
        (checksumWriteArgs.getAsPropertyTreeForService 0) = .ok a' ∧
      checksumWriteArgs.s3ChecksumAlgoStr = "CRC32" ∧ a'.s3ChecksumAlgoStr = "" := by
  have hparse : BlockSizeMix.parse checksumWriteArgs.blockSizeMix.toString =
      .ok checksumWriteArgs.blockSizeMix := by
    rw [BlockSizeMix.parse_toString_iff]
    intro e he
    obtain rfl := List.mem_singleton.mp he
    decide
  rw [setFromPropertyTreeForService_eq, hparse]
  exact ⟨_, rfl, rfl, rfl⟩

end ServiceArgs

end Elbencho
